import Dunkos.ThreadRun
import Dunkos.ListSpec

/-! # Processes (`process.h`, `process.c`, `syscall.c`)

A process is a thread with more behind it: its exit code, two semaphores and the list of its children,
linked by `child_elem`.  Of `process_init` and `fork_process` this is the part that `fork`, `wait` and
`exit_process` use; the tables of pages, files and semaphores have modules of their own.

`fork` calls `fork_process` twice: it makes the first process ready and returns the id of the second
one, which nobody ever makes ready (`fork_adds_two`). -/

namespace Dunkos

open Elem ThreadQueues

/-- The kernel, and the processes among its threads.  `isProcess` is the test of `magic`. -/
structure Machine (M : Type) where
  kernel : Kernel M
  isProcess : ℕ → Bool
  exitCode : ℕ → BitVec 32
  children : ListMem ℕ ℕ

/-- Where the two semaphores of a process are among all semaphores. -/
def waitSema (p : ℕ) : ℕ := 2 * p

def reapSema (p : ℕ) : ℕ := 2 * p + 1

theorem reapSema_inj {c c' : ℕ} : reapSema c = reapSema c' ↔ c = c' := by
  unfold reapSema
  omega

theorem waitSema_ne_reapSema (c c' : ℕ) : waitSema c ≠ reapSema c' := by
  unfold waitSema reapSema
  omega

/-- Memory for a new thread and its id.  It goes on from the context of the running one, outside of the
kernel. -/
def Kernel.newProcess {M : Type} (k : Kernel M) : Kernel M :=
  { k.newThread with
    saved := Function.update k.saved k.nextTid k.intr
    cont := Function.update k.cont k.nextTid [] }

namespace Machine
variable {M : Type} (s : Machine M)

/-- `list_push_back(&cur->children, &pr->base.child_elem)`, where `cur` is the running process.  The lists
of the new process are zero-filled. -/
def forkProcess : Machine M × ℕ :=
  ({ kernel := s.kernel.newProcess
     isProcess := Function.update s.isProcess s.kernel.nextTid true
     exitCode := Function.update s.exitCode s.kernel.nextTid (-1)
     children := listPushBack s.children s.kernel.running (node s.kernel.nextTid) },
    s.kernel.nextTid)

/-- What `fork` does in the parent, and the id it returns. -/
def fork [ThreadQueues M] : Machine M × ℕ :=
  let frk := s.forkProcess
  { frk.1 with kernel := frk.1.kernel.threadUnblock frk.2 }.forkProcess

/-- The children of a process, as a walk over its list comes to them. -/
def childrenOf (p : ℕ) : List ℕ := (forward s.children p).1

/-- What `fork` is for: it leads to `s'` and returns `pid`. -/
structure Forks [ThreadQueues M] (s' : Machine M) (pid : ℕ) : Prop where
  child : s'.childrenOf s.kernel.running = s.childrenOf s.kernel.running ++ [pid]
  ready : members s'.kernel.mem .ready = members s.kernel.mem .ready ++ [pid]

/-- The lists of children hold `σ` and the lists of threads hold `q`, all of them threads that exist. -/
structure WellFormed (s : Machine (ListMem Queue ℕ)) (σ : ℕ → List ℕ) (q : Queue → List ℕ) : Prop where
  children : Represents s.children σ
  queues : Represents s.kernel.mem q
  exists_child : ∀ p, ∀ c ∈ σ p, c < s.kernel.nextTid
  exists_thread : ∀ l, ∀ t ∈ q l, t < s.kernel.nextTid
  exists_idle : s.kernel.idle < s.kernel.nextTid

namespace WellFormed
variable {s : Machine (ListMem Queue ℕ)} {σ : ℕ → List ℕ} {q : Queue → List ℕ}

theorem childrenOf_eq (h : WellFormed s σ q) (p : ℕ) : s.childrenOf p = σ p :=
  congrArg Prod.fst (h.children.forward_eq p)

theorem members_eq (h : WellFormed s σ q) (l : Queue) : members s.kernel.mem l = q l :=
  congrArg Prod.fst (h.queues.forward_eq l)

/-- `fork_process` appends the new process to the children of the running one. -/
theorem forkProcess (h : WellFormed s σ q) : WellFormed s.forkProcess.1
    (Function.update σ s.kernel.running (σ s.kernel.running ++ [s.kernel.nextTid])) q where
  children := h.children.pushBack _ fun p hp => Nat.lt_irrefl _ (h.exists_child p _ hp)
  queues := h.queues
  exists_child p c hc := by
    show c < s.kernel.nextTid + 1
    by_cases hp : p = s.kernel.running
    · rw [hp, Function.update_self, List.mem_append, List.mem_singleton] at hc
      rcases hc with hc | rfl
      · exact Nat.lt_succ_of_lt (h.exists_child _ _ hc)
      · exact Nat.lt_succ_self _
    · rw [Function.update_of_ne hp] at hc
      exact Nat.lt_succ_of_lt (h.exists_child _ _ hc)
  exists_thread l t ht := Nat.lt_succ_of_lt (h.exists_thread l t ht)
  exists_idle := Nat.lt_succ_of_lt h.exists_idle

/-- `thread_unblock` of a thread that is on no list appends it to the ready list. -/
theorem threadUnblock (h : WellFormed s σ q) {thr : ℕ} (hi : thr ≠ s.kernel.idle) (hlt : thr < s.kernel.nextTid)
    (hoff : ∀ l, thr ∉ q l) : WellFormed { s with kernel := s.kernel.threadUnblock thr } σ
      (Function.update q .ready (q .ready ++ [thr])) := by
  have hmem : (s.kernel.threadUnblock thr).mem = listPushBack s.kernel.mem .ready (node thr) :=
    Kernel.threadUnblock_mem s.kernel hi
  have hframe := (Kernel.threadUnblock_frame s.kernel thr).1
  refine ⟨h.children, ?_, fun p c hc => ?_, fun l t ht => ?_, ?_⟩
  · show Represents (s.kernel.threadUnblock thr).mem _
    rw [hmem]
    exact h.queues.pushBack _ hoff
  · show c < (s.kernel.threadUnblock thr).nextTid
    rw [hframe.nextTid]
    exact h.exists_child p c hc
  · show t < (s.kernel.threadUnblock thr).nextTid
    rw [hframe.nextTid]
    by_cases hl : l = .ready
    · rw [hl, Function.update_self, List.mem_append, List.mem_singleton] at ht
      rcases ht with ht | rfl
      · exact h.exists_thread _ _ ht
      · exact hlt
    · rw [Function.update_of_ne hl] at ht
      exact h.exists_thread _ _ ht
  · show (s.kernel.threadUnblock thr).idle < (s.kernel.threadUnblock thr).nextTid
    rw [hframe.idle, hframe.nextTid]
    exact h.exists_idle

end WellFormed

end Machine

open Machine

/-- **`fork` makes two processes.**  Both are appended to the children of the caller.  The first one is made
ready; the id returned is that of the second one, which is blocked and on no list of threads. -/
theorem fork_adds_two {s : Machine (ListMem Queue ℕ)} {σ : ℕ → List ℕ} {q : Queue → List ℕ} (h : s.WellFormed σ q) :
    let n := s.kernel.nextTid
    let r := s.fork
    r.1.childrenOf s.kernel.running = s.childrenOf s.kernel.running ++ [n, n + 1] ∧
      members r.1.kernel.mem .ready = members s.kernel.mem .ready ++ [n] ∧ r.2 = n + 1 ∧
      r.1.kernel.status n = .ready ∧ r.1.kernel.status (n + 1) = .blocked ∧
      (∀ l, n + 1 ∉ members r.1.kernel.mem l) ∧ ¬ s.Forks r.1 r.2 := by
  intro n r
  have hoff : ∀ l, n ∉ q l := fun l hl => Nat.lt_irrefl _ (h.exists_thread l n hl)
  have h₁ := h.forkProcess
  have h₂ := h₁.threadUnblock (Nat.ne_of_gt h.exists_idle) (Nat.lt_succ_self n) hoff
  have h₃ := h₂.forkProcess
  have hframe := Kernel.threadUnblock_frame s.forkProcess.1.kernel n
  have hrun : (s.forkProcess.1.kernel.threadUnblock n).running = s.kernel.running := hframe.2
  have hnext : (s.forkProcess.1.kernel.threadUnblock n).nextTid = n + 1 := hframe.1.nextTid
  have hchildren : r.1.childrenOf s.kernel.running = s.childrenOf s.kernel.running ++ [n, n + 1] := by
    rw [show r.1.childrenOf _ = _ from h₃.childrenOf_eq _, h.childrenOf_eq]
    dsimp only
    rw [hrun, hnext, Function.update_self]
    show Function.update σ s.kernel.running (σ s.kernel.running ++ [n]) s.kernel.running ++ [n + 1] = _
    rw [Function.update_self, List.append_assoc]
    rfl
  have hready : members r.1.kernel.mem .ready = members s.kernel.mem .ready ++ [n] := by
    rw [show members r.1.kernel.mem _ = _ from h₃.members_eq _, h.members_eq, Function.update_self]
  have hid : r.2 = n + 1 := hnext
  refine ⟨hchildren, hready, hid, ?_, ?_, fun l hl => ?_, fun hf => ?_⟩
  · show Function.update (s.forkProcess.1.kernel.threadUnblock n).status
      (s.forkProcess.1.kernel.threadUnblock n).nextTid ThreadStatus.blocked n = .ready
    rw [hnext, Function.update_of_ne (Nat.ne_of_lt (Nat.lt_succ_self n))]
    rw [Kernel.threadUnblock_eq]
    exact Function.update_self ..
  · show Function.update (s.forkProcess.1.kernel.threadUnblock n).status
      (s.forkProcess.1.kernel.threadUnblock n).nextTid ThreadStatus.blocked (n + 1) = .blocked
    rw [hnext, Function.update_self]
  · rw [show members r.1.kernel.mem l = _ from h₃.members_eq l] at hl
    exact Nat.lt_irrefl _ (hnext ▸ h₂.exists_thread l (n + 1) hl)
  · have hready' := hf.ready
    rw [hready, hid] at hready'
    have hn := List.append_cancel_left hready'
    exact absurd (List.cons.inj hn).1 (Nat.ne_of_lt (Nat.lt_succ_self n))

/-- The initial thread as a process without children. -/
def oneProcess : Machine (ListMem Queue ℕ) where
  kernel := initThreads ⟨fun _ => null, fun _ => null, fun _ => 0⟩ (fun _ => 0) .enabled true
  isProcess := fun t => t == 0
  exitCode := fun _ => -1
  children := ⟨fun _ => null, fun _ => null, fun _ => 0⟩

theorem fork_adds_two_first : oneProcess.WellFormed (fun _ => []) (fun _ => []) ∧
    oneProcess.fork.1.childrenOf 0 = [2, 3] ∧ oneProcess.fork.2 = 3 ∧ ¬ oneProcess.Forks oneProcess.fork.1 3 := by
  have h : oneProcess.WellFormed (fun _ => []) (fun _ => []) := by
    refine ⟨.of_fresh fun _ => .inr ⟨rfl, rfl, rfl, rfl, rfl⟩,
      .of_fresh fun _ => .inr ⟨rfl, rfl, rfl, rfl, rfl⟩, fun p c hc => ?_,
      fun l t ht => ?_, by decide⟩
    · cases hc
    · cases ht
  exact ⟨h, by decide +kernel, by decide +kernel, (fork_adds_two h).2.2.2.2.2.2⟩

/-- The parent gets the id `3`, and thread `2` is ready. -/
theorem fork_returns_other : oneProcess.fork.2 = 3 ∧ oneProcess.fork.1.childrenOf 0 = [2, 3] ∧
    members oneProcess.fork.1.kernel.mem .ready = [2] := by
  decide +kernel

end Dunkos
