import Dunkos.Process
import Dunkos.Lib.Reach

/-! # `wait` and `exit`

`Processes` runs `fork`, `wait` and `exit_process` of any number of processes over the kernel of
`Thread.lean`.  `pc` is where a process is in these functions when it is outside of those of `thread.c`,
with the local variables it needs there; a process can be interrupted between any two steps.

`wait` traverses the children while it takes one out: the pointers of a node that was removed still lead
on.  `wait_exit_agree` says what a `wait` returns in every run. -/

namespace Dunkos

open Elem ThreadQueues

inductive ProcessPc where
  | user
  | forking
  | waitLoop (p : ℕ) (status : BitVec 32) (e : Elem ℕ ℕ)
  | waitDec (p chld : ℕ)
  | waitRemove (p : ℕ) (status : BitVec 32) (chld : ℕ)
  | waitInc (p : ℕ) (status : BitVec 32) (chld : ℕ)
  | exitLoop (el : Elem ℕ ℕ)
  | exitInc (chld : ℕ)
  | exitSelf
  | exitReap
  | exited
deriving DecidableEq, Repr

/-- A call of `wait` that returned, and whether `pid` was a child of the caller when it was made. -/
structure WaitResult where
  parent : ℕ
  pid : ℕ
  child : Bool
  status : BitVec 32
deriving DecidableEq, Repr

/-- `exits` records what each process passed to `exit_process`, `wasChild` whether the process its last `wait`
was called for was a child then, and `waits` the calls of `wait` that returned. -/
structure Processes (M : Type) extends Machine M where
  pc : ℕ → ProcessPc
  exits : ℕ → Option (BitVec 32)
  wasChild : ℕ → Bool
  waits : List WaitResult

/-- A step of the kernel, a call of the running process, or the next step in the function it is in. -/
inductive ProcessAction where
  | kernel (act : Action)
  | fork
  | wait (p : ℕ)
  | exit (status : BitVec 32)
  | advance
deriving DecidableEq, Repr

namespace Processes
variable {M : Type} (s : Processes M)

def move (pc : ProcessPc) : Processes M := { s with pc := Function.update s.pc s.kernel.running pc }

/-- The running process calls a function of `thread.c`. -/
def call (op : ThreadOp) : Processes M := { s with kernel := s.kernel.enter op.body }

/-- The next step of the running process, which is at a given place.  In `exit_process` the table of pages is
left out. -/
def advance : ProcessPc → Option (Processes M)
  | .user => none
  | .forking => some { s.move .user with toMachine := s.forkProcess.1 }
  | .waitLoop p status e =>
      if e = listEnd s.children s.kernel.running then
        some { s.move .user with waits := ⟨s.kernel.running, p, s.wasChild s.kernel.running, status⟩ :: s.waits }
      else e.node?.map fun t =>
        if s.isProcess t ∧ t = p then (s.call (.semaphoreDec (waitSema t))).move (.waitDec p t)
        else s.move (.waitLoop p status (listNext s.children e))
  | .waitDec p chld => some (s.move (.waitRemove p (s.exitCode chld) chld))
  | .waitRemove p status chld =>
      some { (s.move (.waitInc p status chld)).call (.semaphoreInc (reapSema chld)) with
        children := listRemove s.children s.kernel.running (node chld) }
  | .waitInc p status chld => some (s.move (.waitLoop p status (listNext s.children (node chld))))
  | .exitLoop el =>
      if el = listEnd s.children s.kernel.running then
        some ((s.call (.semaphoreInc (waitSema s.kernel.running))).move .exitSelf)
      else el.node?.map fun t =>
        if s.isProcess t then (s.call (.semaphoreInc (reapSema t))).move (.exitInc t)
        else s.move (.exitLoop (listNext s.children el))
  | .exitInc chld => some (s.move (.exitLoop (listNext s.children (node chld))))
  | .exitSelf => some ((s.call (.semaphoreDec (reapSema s.kernel.running))).move .exitReap)
  | .exitReap => some ((s.call .exitThread).move .exited)
  | .exited => none

/-- The running thread is a process, outside of the functions of `thread.c`. -/
def Outside : Prop :=
  s.kernel.running ≠ s.kernel.idle ∧ s.kernel.cont s.kernel.running = [] ∧ s.isProcess s.kernel.running = true

instance : Decidable s.Outside := inferInstanceAs (Decidable (_ ∧ _ ∧ _))

/-- It is in none of the functions below. -/
def Idle : Prop := s.Outside ∧ s.pc s.kernel.running = .user

instance : Decidable s.Idle := inferInstanceAs (Decidable (_ ∧ _))

end Processes

namespace Processes
variable {M : Type} [ThreadQueues M] (s : Processes M)

/-- Threads that are no processes call functions of `thread.c` only. -/
def step : ProcessAction → Option (Processes M)
  | .kernel (.call op) =>
      if s.pc s.kernel.running = .user then (s.kernel.step (.call op)).map fun k => { s with kernel := k } else none
  | .kernel act => (s.kernel.step act).map fun k => { s with kernel := k }
  | .fork =>
      if s.Idle then
        some (({ s with toMachine := s.forkProcess.1 }.call (.threadUnblock s.forkProcess.2)).move .forking)
      else none
  | .wait p =>
      if s.Idle then
        some { s.move (.waitLoop p (-1) (listBegin s.children s.kernel.running)) with
          wasChild := Function.update s.wasChild s.kernel.running (decide (p ∈ s.childrenOf s.kernel.running)) }
      else none
  | .exit status =>
      if s.Idle then
        some { s.move (.exitLoop (listBegin s.children s.kernel.running)) with
          exitCode := Function.update s.exitCode s.kernel.running status
          exits := Function.update s.exits s.kernel.running (some status) }
      else none
  | .advance => if s.Outside then s.advance (s.pc s.kernel.running) else none

/-- The semaphores of processes are used by the functions above only. -/
def Unrelated (_ : Processes M) : ProcessAction → Prop
  | .kernel (.call (.semaphoreInc _)) => False
  | .kernel (.call (.semaphoreDec _)) => False
  | _ => True

instance (act : ProcessAction) : Decidable (s.Unrelated act) := by
  unfold Unrelated
  split <;> infer_instance

/-- The initial thread as a process without children; all semaphores are zero. -/
def start (mem : M) (level : InterruptLevel) (intr : Bool) : Processes M where
  kernel := initThreads mem (fun _ => 0) level intr
  isProcess := fun t => t == 0
  exitCode := fun _ => -1
  children := ⟨fun _ => null, fun _ => null, fun _ => 0⟩
  pc := fun _ => .user
  exits := fun _ => none
  wasChild := fun _ => false
  waits := []

end Processes

/-! ### Where processes are -/

open Kernel

/-- It has called `exit_process`. -/
def ProcessPc.exiting : ProcessPc → Bool
  | exitLoop _ => true
  | exitInc _ => true
  | exitSelf => true
  | exitReap => true
  | exited => true
  | _ => false

namespace Processes
variable {M : Type} {s s' : Processes M} {σ σ' : ℕ → List ℕ}

/-- What a call of `wait` returned, when the lists of children hold `σ`. -/
def Right (s : Processes M) (σ : ℕ → List ℕ) (w : WaitResult) : Prop :=
  (w.child = true → s.exits w.pid = some w.status ∧ w.pid ∉ σ w.parent) ∧ (w.child = false → w.status = -1)

/-- `t` has found `p`, and took it out of its children with its status. -/
structure Reaped (s : Processes M) (σ : ℕ → List ℕ) (t p : ℕ) (status : BitVec 32) : Prop where
  exits : s.exits p = some status
  removed : p ∉ σ t
  once : ∀ w ∈ s.waits, w.child = true → w.parent = t → w.pid ≠ p

/-- What holds of a process in the functions above.  In `wait`, `ys` are the children the traversal still
comes to; behind `semaphore_dec` the child has exited. -/
def Place (s : Processes M) (σ : ℕ → List ℕ) (t : ℕ) : ProcessPc → Prop
  | .waitLoop p status e => ∃ ys, ys <:+ σ t ∧ e = cellAt t ys ∧ (p ∈ σ t → p ∈ ys) ∧
      (s.wasChild t = true → p ∈ σ t ∨ s.Reaped σ t p status) ∧ (s.wasChild t = false → p ∉ σ t ∧ status = -1)
  | .waitDec p chld => chld = p ∧ s.wasChild t = true ∧ p ∈ σ t ∧
      (pending (.sem (waitSema p)) (s.kernel.cont t) = [] → (s.exits p).isSome)
  | .waitRemove p status chld => chld = p ∧ s.wasChild t = true ∧ p ∈ σ t ∧ s.exits p = some status
  | .waitInc p status chld => chld = p ∧ s.wasChild t = true ∧ s.Reaped σ t p status ∧ (∀ q, p ∉ σ q) ∧
      ∃ ys, ys <:+ σ t ∧ s.children.next (node p) = cellAt t ys
  | _ => True

/-- What holds of one process. -/
structure At (s : Processes M) (σ : ℕ → List ℕ) (t : ℕ) : Prop where
  exiting : (s.exits t).isSome = (s.pc t).exiting
  place : s.Place σ t (s.pc t)

/-- What holds of all of them together. -/
structure Common (s : Processes M) (σ : ℕ → List ℕ) : Prop where
  sane : s.kernel.Sane
  lists : Represents s.children σ
  child : ∀ q, ∀ c ∈ σ q, c < s.kernel.nextTid ∧ s.isProcess c = true
  fresh : ∀ t, s.kernel.nextTid ≤ t → s.pc t = .user ∧ s.exits t = none ∧ ∀ x, pending x (s.kernel.cont t) = []
  code : ∀ p status, s.exits p = some status → s.exitCode p = status
  posted : ∀ p, s.kernel.value (.sem (waitSema p)) ≠ 0 → (s.exits p).isSome
  posting : ∀ t p, .semaphoreInc (.sem (waitSema p)) ∈ pending (.sem (waitSema p)) (s.kernel.cont t) →
    (s.exits p).isSome
  right : ∀ w ∈ s.waits, s.Right σ w
  once : s.waits.Pairwise fun w w' => w.child = true → w'.child = true → w.parent = w'.parent → w.pid ≠ w'.pid

/-- The invariant. -/
def Inv (s : Processes M) (σ : ℕ → List ℕ) : Prop := s.Common σ ∧ ∀ t, s.At σ t

/-- A step of others, as a process in the functions above sees it. -/
structure Keeps (s s' : Processes M) (σ σ' : ℕ → List ℕ) (t : ℕ) : Prop where
  pc : s'.pc t = s.pc t
  own : σ' t = σ t
  wasChild : s'.wasChild t = s.wasChild t
  waits : ∀ w ∈ s'.waits, w.parent = t → w ∈ s.waits
  exits : ∀ p status, s.exits p = some status → s'.exits p = some status
  exits_own : s'.exits t = s.exits t
  next : ∀ p, (s.exits p).isSome → (∀ q, p ∉ σ q) →
    (∀ q, p ∉ σ' q) ∧ s'.children.next (node p) = s.children.next (node p)
  pending : ∀ p, pending (.sem (waitSema p)) (s'.kernel.cont t) = [] →
    pending (.sem (waitSema p)) (s.kernel.cont t) = [] ∨ (s'.exits p).isSome

namespace Keeps
variable {t : ℕ}

theorem isSome (h : Keeps s s' σ σ' t) {p : ℕ} (hp : (s.exits p).isSome) : (s'.exits p).isSome := by
  obtain ⟨status, hs⟩ := Option.isSome_iff_exists.mp hp
  exact Option.isSome_iff_exists.mpr ⟨status, h.exits p status hs⟩

theorem reaped (h : Keeps s s' σ σ' t) {p : ℕ} {status : BitVec 32} (hr : s.Reaped σ t p status) :
    s'.Reaped σ' t p status where
  exits := h.exits p status hr.exits
  removed := h.own ▸ hr.removed
  once w hw hc hp := hr.once w (h.waits w hw hp) hc hp

theorem place (h : Keeps s s' σ σ' t) {pc : ProcessPc} (hp : s.Place σ t pc) : s'.Place σ' t pc := by
  cases pc with
  | waitLoop p status e =>
      obtain ⟨ys, hys, he, hin, hchild, hother⟩ := hp
      refine ⟨ys, ?_, he, ?_, ?_, ?_⟩
      · rwa [h.own]
      · rwa [h.own]
      · rw [h.own, h.wasChild]
        exact fun hc => (hchild hc).imp_right h.reaped
      · rwa [h.own, h.wasChild]
  | waitDec p chld =>
      obtain ⟨hc, hwas, hin, hpend⟩ := hp
      refine ⟨hc, h.wasChild.trans hwas, h.own ▸ hin, fun hnil => ?_⟩
      exact (h.pending p hnil).elim (fun hn => h.isSome (hpend hn)) id
  | waitRemove p status chld =>
      obtain ⟨hc, hwas, hin, hexit⟩ := hp
      exact ⟨hc, h.wasChild.trans hwas, h.own ▸ hin, h.exits p status hexit⟩
  | waitInc p status chld =>
      obtain ⟨hc, hwas, hr, hout, ys, hys, hnext⟩ := hp
      obtain ⟨hout', hsame⟩ := h.next p (hr.exits ▸ rfl) hout
      exact ⟨hc, h.wasChild.trans hwas, h.reaped hr, hout', ys, h.own ▸ hys, hsame.trans hnext⟩
  | _ => trivial

theorem at_ (h : Keeps s s' σ σ' t) (ha : s.At σ t) : s'.At σ' t where
  exiting := by
    rw [h.exits_own, h.pc]
    exact ha.exiting
  place := by
    rw [h.pc]
    exact h.place ha.place

theorem trans {s'' : Processes M} {σ'' : ℕ → List ℕ} (h : Keeps s s' σ σ' t) (h' : Keeps s' s'' σ' σ'' t) :
    Keeps s s'' σ σ'' t where
  pc := h'.pc.trans h.pc
  own := h'.own.trans h.own
  wasChild := h'.wasChild.trans h.wasChild
  waits w hw hp := h.waits w (h'.waits w hw hp) hp
  exits p status he := h'.exits p status (h.exits p status he)
  exits_own := h'.exits_own.trans h.exits_own
  next p he hout := by
    obtain ⟨hout', hnext⟩ := h.next p he hout
    obtain ⟨hout'', hnext'⟩ := h'.next p (h.isSome he) hout'
    exact ⟨hout'', hnext'.trans hnext⟩
  pending p hnil := by
    rcases h'.pending p hnil with hn | he
    · exact (h.pending p hn).imp_right h'.isSome
    · exact .inr he

theorem move (ht : t ≠ s.kernel.running) (pc : ProcessPc) : Keeps s (s.move pc) σ σ t where
  pc := Function.update_of_ne ht _ _
  own := rfl
  wasChild := rfl
  waits _ hw _ := hw
  exits _ _ he := he
  exits_own := rfl
  next _ _ hout := ⟨hout, rfl⟩
  pending _ hnil := .inl hnil

theorem call (ht : t ≠ s.kernel.running) (op : ThreadOp) : Keeps s (s.call op) σ σ t where
  pc := rfl
  own := rfl
  wasChild := rfl
  waits _ hw _ := hw
  exits _ _ he := he
  exits_own := rfl
  next _ _ hout := ⟨hout, rfl⟩
  pending _ hnil := .inl (enter_others s.kernel op.body ht ▸ hnil)

theorem call_move (ht : t ≠ s.kernel.running) (op : ThreadOp) (pc : ProcessPc) :
    Keeps s ((s.call op).move pc) σ σ t := (Keeps.call ht op).trans (.move (s := s.call op) ht pc)

end Keeps

/-! ### Parts of a step -/

namespace Common

theorem childrenOf_eq (h : s.Common σ) (p : ℕ) : s.childrenOf p = σ p := congrArg Prod.fst (h.lists.forward_eq p)

theorem ne_of_fresh (h : s.Common σ) {t : ℕ} (ht : s.kernel.nextTid ≤ t) : t ≠ s.kernel.running := by
  have := h.sane.exists_running
  omega

/-- Processes that have exited exist. -/
theorem exists_of_exited (h : s.Common σ) {p : ℕ} (hp : (s.exits p).isSome) : p < s.kernel.nextTid := by
  by_contra hn
  rw [(h.fresh p (Nat.le_of_not_lt hn)).2.1] at hp
  cases hp

theorem move (h : s.Common σ) (pc : ProcessPc) : (s.move pc).Common σ where
  sane := h.sane
  lists := h.lists
  child := h.child
  fresh t ht := ⟨(Function.update_of_ne (h.ne_of_fresh ht) _ _).trans (h.fresh t ht).1, (h.fresh t ht).2⟩
  code := h.code
  posted := h.posted
  posting := h.posting
  right := h.right
  once := h.once

/-- The running process calls a function of the kernel; it increments no `wait_sema` but those of processes
that have exited. -/
theorem call (h : s.Common σ) (hout : s.Outside) {op : ThreadOp}
    (hpost : ∀ p, .semaphoreInc (.sem (waitSema p)) ∈ op.body → (s.exits p).isSome) : (s.call op).Common σ where
  sane := h.sane.enter hout.1 hout.2.1 op.formed
  lists := h.lists
  child := h.child
  fresh t ht := by
    refine ⟨(h.fresh t ht).1, (h.fresh t ht).2.1, fun x => ?_⟩
    rw [show (s.call op).kernel = s.kernel.enter op.body from rfl, enter_others _ _ (h.ne_of_fresh ht)]
    exact (h.fresh t ht).2.2 x
  code := h.code
  posted := h.posted
  posting t p hp := by
    rw [show (s.call op).kernel = s.kernel.enter op.body from rfl] at hp
    by_cases ht : t = s.kernel.running
    · rw [ht, enter_self, hout.2.1, List.append_nil] at hp
      exact hpost p (List.mem_of_mem_filter hp)
    · rw [enter_others _ _ ht] at hp
      exact h.posting t p hp
  right := h.right
  once := h.once

theorem newProcess_sane {k : Kernel M} (h : k.Sane) : k.newProcess.Sane where
  exists_running := Nat.lt_succ_of_lt h.exists_running
  exists_idle := Nat.lt_succ_of_lt h.exists_idle
  formed t := by
    show Formed (Function.update k.cont k.nextTid [] t)
    rw [Function.update_apply]
    split_ifs
    · exact .nil
    · exact h.formed t
  idle_cont := by
    show ∀ stmt ∈ Function.update k.cont k.nextTid [] k.idle, _
    rw [Function.update_of_ne (Nat.ne_of_lt h.exists_idle)]
    exact h.idle_cont

/-- No list has a process that does not exist. -/
theorem not_child (h : s.Common σ) (q : ℕ) : s.kernel.nextTid ∉ σ q := fun hq => Nat.lt_irrefl _ (h.child q _ hq).1

theorem newProcess_pending (h : s.Common σ) (t : ℕ) (x : Sema) :
    pending x (s.kernel.newProcess.cont t) = pending x (s.kernel.cont t) := by
  show pending x (Function.update s.kernel.cont s.kernel.nextTid [] t) = _
  by_cases ht : t = s.kernel.nextTid
  · rw [ht, Function.update_self, (h.fresh _ (Nat.le_refl _)).2.2]
    rfl
  · rw [Function.update_of_ne ht]

/-- `fork_process`. -/
theorem forkProcess (h : s.Common σ) : Common { s with toMachine := s.forkProcess.1 }
    (Function.update σ s.kernel.running (σ s.kernel.running ++ [s.kernel.nextTid])) where
  sane := newProcess_sane h.sane
  lists := h.lists.pushBack _ h.not_child
  child q c hc := by
    show c < s.kernel.nextTid + 1 ∧ Function.update s.isProcess s.kernel.nextTid true c = true
    have hold : c = s.kernel.nextTid ∨ c < s.kernel.nextTid ∧ s.isProcess c = true := by
      rw [Function.update_apply] at hc
      split_ifs at hc
      · rcases List.mem_append.mp hc with hc | hc
        · exact .inr (h.child _ c hc)
        · exact .inl (List.mem_singleton.mp hc)
      · exact .inr (h.child q c hc)
    rcases hold with rfl | ⟨hlt, hp⟩
    · exact ⟨Nat.lt_succ_self _, Function.update_self ..⟩
    · exact ⟨Nat.lt_succ_of_lt hlt, (Function.update_of_ne (Nat.ne_of_lt hlt) _ _).trans hp⟩
  fresh t ht := by
    obtain ⟨hpc, hexit, hpend⟩ := h.fresh t (Nat.le_of_succ_le ht)
    exact ⟨hpc, hexit, fun x => (h.newProcess_pending t x).trans (hpend x)⟩
  code p status he := by
    have hlt := h.exists_of_exited (he ▸ rfl : (s.exits p).isSome)
    exact (Function.update_of_ne (Nat.ne_of_lt hlt) _ _).trans (h.code p status he)
  posted := h.posted
  posting t p hp := by
    have hp' : .semaphoreInc (.sem (waitSema p)) ∈ pending (.sem (waitSema p)) (s.kernel.newProcess.cont t) := hp
    rw [h.newProcess_pending] at hp'
    exact h.posting t p hp'
  right w hw := by
    refine ⟨fun hc => ⟨((h.right w hw).1 hc).1, fun hin => ?_⟩, (h.right w hw).2⟩
    obtain ⟨hexit, hout⟩ := (h.right w hw).1 hc
    have hlt := h.exists_of_exited (hexit ▸ rfl : (s.exits w.pid).isSome)
    rw [Function.update_apply] at hin
    split_ifs at hin with hp
    · rcases List.mem_append.mp hin with hin | hin
      · exact hout (hp ▸ hin)
      · exact Nat.ne_of_lt hlt (List.mem_singleton.mp hin)
    · exact hout hin
  once := h.once

/-- `list_remove` of a child of the running process. -/
theorem remove (h : s.Common σ) {c : ℕ} (hc : c ∈ σ s.kernel.running) :
    Common { s with children := listRemove s.children s.kernel.running (node c) }
      (Function.update σ s.kernel.running ((σ s.kernel.running).erase c)) := by
  have hsub : ∀ q a, a ∈ Function.update σ s.kernel.running ((σ s.kernel.running).erase c) q → a ∈ σ q := by
    intro q a ha
    rw [Function.update_apply] at ha
    split_ifs at ha with hq
    · exact hq ▸ List.mem_of_mem_erase ha
    · exact ha
  refine ⟨h.sane, h.lists.remove hc, fun q a ha => h.child q a (hsub q a ha), h.fresh, h.code, h.posted, h.posting,
    fun w hw => ?_, h.once⟩
  exact ⟨fun hw' => ⟨((h.right w hw).1 hw').1, fun hin => ((h.right w hw).1 hw').2 (hsub _ _ hin)⟩, (h.right w hw).2⟩

/-- `exit_process` stores the exit code, once. -/
theorem exit (h : s.Common σ) (hnone : s.exits s.kernel.running = none) (status : BitVec 32) :
    Common { s with
      exitCode := Function.update s.exitCode s.kernel.running status
      exits := Function.update s.exits s.kernel.running (some status) } σ := by
  have hmono : ∀ p st, s.exits p = some st → Function.update s.exits s.kernel.running (some status) p = some st := by
    intro p st he
    have hne : p ≠ s.kernel.running := fun hp => by rw [hp, hnone] at he; cases he
    exact (Function.update_of_ne hne _ _).trans he
  have hsome : ∀ p, (s.exits p).isSome → (Function.update s.exits s.kernel.running (some status) p).isSome := by
    intro p hp
    obtain ⟨st, he⟩ := Option.isSome_iff_exists.mp hp
    exact Option.isSome_iff_exists.mpr ⟨st, hmono p st he⟩
  refine ⟨h.sane, h.lists, h.child, fun t ht => ?_, fun p st he => ?_, fun p hp => hsome p (h.posted p hp),
    fun t p hp => hsome p (h.posting t p hp), fun w hw => ?_, h.once⟩
  · exact ⟨(h.fresh t ht).1, (Function.update_of_ne (h.ne_of_fresh ht) _ _).trans (h.fresh t ht).2.1, (h.fresh t ht).2.2⟩
  · have he' : Function.update s.exits s.kernel.running (some status) p = some st := he
    show Function.update s.exitCode s.kernel.running status p = st
    rw [Function.update_apply] at he' ⊢
    split_ifs at he' ⊢
    · exact Option.some.inj he'
    · exact h.code p st he'
  · exact ⟨fun hc => ⟨hmono _ _ ((h.right w hw).1 hc).1, ((h.right w hw).1 hc).2⟩, (h.right w hw).2⟩

/-- A call of `wait` returns. -/
theorem returned (h : s.Common σ) {w : WaitResult} (hw : s.Right σ w)
    (hnew : ∀ w' ∈ s.waits, w.child = true → w'.child = true → w.parent = w'.parent → w.pid ≠ w'.pid) :
    Common { s with waits := w :: s.waits } σ :=
  ⟨h.sane, h.lists, h.child, h.fresh, h.code, h.posted, h.posting, List.forall_mem_cons.mpr ⟨hw, h.right⟩,
    List.pairwise_cons.mpr ⟨hnew, h.once⟩⟩

end Common

namespace Keeps
variable {t : ℕ}

theorem forkProcess (h : s.Common σ) (ht : t ≠ s.kernel.running) : Keeps s { s with toMachine := s.forkProcess.1 } σ
    (Function.update σ s.kernel.running (σ s.kernel.running ++ [s.kernel.nextTid])) t where
  pc := rfl
  own := Function.update_of_ne ht _ _
  wasChild := rfl
  waits _ hw _ := hw
  exits _ _ he := he
  exits_own := rfl
  next p hp hout := by
    have hne : p ≠ s.kernel.nextTid := Nat.ne_of_lt (h.exists_of_exited hp)
    refine ⟨fun q hq => ?_, h.lists.next_pushBack _ hout hne⟩
    rw [Function.update_apply] at hq
    split_ifs at hq
    · rcases List.mem_append.mp hq with hq | hq
      · exact hout _ hq
      · exact hne (List.mem_singleton.mp hq)
    · exact hout q hq
  pending p hnil := .inl ((h.newProcess_pending t _).symm.trans hnil)

theorem remove (h : s.Common σ) {c : ℕ} (hc : c ∈ σ s.kernel.running) (ht : t ≠ s.kernel.running) :
    Keeps s { s with children := listRemove s.children s.kernel.running (node c) } σ
      (Function.update σ s.kernel.running ((σ s.kernel.running).erase c)) t where
  pc := rfl
  own := Function.update_of_ne ht _ _
  wasChild := rfl
  waits _ hw _ := hw
  exits _ _ he := he
  exits_own := rfl
  next p _ hout := by
    refine ⟨fun q hq => ?_, h.lists.next_remove hc (.inr (hout _))⟩
    rw [Function.update_apply] at hq
    split_ifs at hq
    · exact hout _ (List.mem_of_mem_erase hq)
    · exact hout q hq
  pending _ hnil := .inl hnil

theorem exit (hnone : s.exits s.kernel.running = none) (status : BitVec 32) (ht : t ≠ s.kernel.running) :
    Keeps s { s with
      exitCode := Function.update s.exitCode s.kernel.running status
      exits := Function.update s.exits s.kernel.running (some status) } σ σ t where
  pc := rfl
  own := rfl
  wasChild := rfl
  waits _ hw _ := hw
  exits p st he := by
    have hne : p ≠ s.kernel.running := fun hp => by rw [hp, hnone] at he; cases he
    exact (Function.update_of_ne hne _ _).trans he
  exits_own := Function.update_of_ne ht _ _
  next _ _ hout := ⟨hout, rfl⟩
  pending _ hnil := .inl hnil

theorem returned {w : WaitResult} (hw : w.parent ≠ t) : Keeps s { s with waits := w :: s.waits } σ σ t where
  pc := rfl
  own := rfl
  wasChild := rfl
  waits _ hin hp := (List.mem_cons.mp hin).resolve_left fun he => hw (he ▸ hp)
  exits _ _ he := he
  exits_own := rfl
  next _ _ hout := ⟨hout, rfl⟩
  pending _ hnil := .inl hnil

theorem called (ht : t ≠ s.kernel.running) (b : Bool) :
    Keeps s { s with wasChild := Function.update s.wasChild s.kernel.running b } σ σ t where
  pc := rfl
  own := rfl
  wasChild := Function.update_of_ne ht _ _
  waits _ hw _ := hw
  exits _ _ he := he
  exits_own := rfl
  next _ _ hout := ⟨hout, rfl⟩
  pending _ hnil := .inl hnil

end Keeps

/-! ### Steps -/

theorem not_posting_reap (c p : ℕ) :
    .semaphoreInc (.sem (waitSema p)) ∉ (ThreadOp.semaphoreInc (reapSema c)).body := by
  intro hp
  have heq := List.mem_singleton.mp hp
  simp only [Stmt.semaphoreInc.injEq, Sema.sem.injEq, waitSema, reapSema] at heq
  omega

theorem At.of_pc {t : ℕ} {pc : ProcessPc} (hpc : s.pc t = pc) (he : (s.exits t).isSome = pc.exiting)
    (hp : s.Place σ t pc) : s.At σ t := by
  subst hpc
  exact ⟨he, hp⟩

namespace Inv

theorem update (h : s.Inv σ) (hc : s'.Common σ') (hk : ∀ t, t ≠ s.kernel.running → Keeps s s' σ σ' t)
    (ho : s'.At σ' s.kernel.running) : s'.Inv σ' := by
  refine ⟨hc, fun t => ?_⟩
  by_cases ht : t = s.kernel.running
  · exact ht ▸ ho
  · exact (hk t ht).at_ (h.2 t)

theorem exiting_eq (h : s.Inv σ) {pc : ProcessPc} (hpc : s.pc s.kernel.running = pc) :
    (s.exits s.kernel.running).isSome = pc.exiting := hpc ▸ (h.2 _).exiting

theorem place_eq (h : s.Inv σ) {pc : ProcessPc} (hpc : s.pc s.kernel.running = pc) :
    s.Place σ s.kernel.running pc := hpc ▸ (h.2 _).place

/-- The running process goes on without anything else. -/
theorem move (h : s.Inv σ) {pc₀ pc : ProcessPc} (hpc : s.pc s.kernel.running = pc₀) (he : pc₀.exiting = pc.exiting)
    (hp : (s.move pc).Place σ s.kernel.running pc) : (s.move pc).Inv σ :=
  h.update (h.1.move pc) (fun _ ht => .move ht pc)
    (.of_pc (Function.update_self ..) ((h.exiting_eq hpc).trans he) hp)

/-- The running process goes on with a function of the kernel. -/
theorem call_move (h : s.Inv σ) (hout : s.Outside) {op : ThreadOp} {pc₀ pc : ProcessPc}
    (hpost : ∀ p, .semaphoreInc (.sem (waitSema p)) ∈ op.body → (s.exits p).isSome)
    (hpc : s.pc s.kernel.running = pc₀) (he : pc₀.exiting = pc.exiting)
    (hp : ((s.call op).move pc).Place σ s.kernel.running pc) : ((s.call op).move pc).Inv σ :=
  h.update ((h.1.call hout hpost).move pc) (fun _ ht => .call_move ht op pc)
    (.of_pc (Function.update_self ..) ((h.exiting_eq hpc).trans he) hp)

theorem exits_none (h : s.Inv σ) {pc : ProcessPc} (hpc : s.pc s.kernel.running = pc) (he : pc.exiting = false) :
    s.exits s.kernel.running = none := by
  rw [← Option.not_isSome_iff_eq_none, h.exiting_eq hpc, he]
  exact Bool.false_ne_true

end Inv

/-- At the end of the traversal `wait` returns. -/
theorem advance_waitLoop_nil (p : ℕ) (status : BitVec 32) :
    s.advance (.waitLoop p status (cellAt s.kernel.running [])) = some { s.move .user with
      waits := ⟨s.kernel.running, p, s.wasChild s.kernel.running, status⟩ :: s.waits } :=
  if_pos rfl

/-- Else it looks at the next child. -/
theorem advance_waitLoop_cons (p c : ℕ) (ys : List ℕ) (status : BitVec 32) :
    s.advance (.waitLoop p status (cellAt s.kernel.running (c :: ys))) =
      some (if s.isProcess c ∧ c = p then (s.call (.semaphoreDec (waitSema c))).move (.waitDec p c)
        else s.move (.waitLoop p status (listNext s.children (node c)))) := by
  have hne : cellAt s.kernel.running (c :: ys) ≠ listEnd s.children s.kernel.running := nofun
  unfold advance
  dsimp only
  rw [if_neg hne]
  rfl

namespace Inv

/-- One step of the loop of `wait`. -/
theorem waitLoop (h : s.Inv σ) (hout : s.Outside) {p : ℕ} {status : BitVec 32} {e : Elem ℕ ℕ}
    (hpc : s.pc s.kernel.running = .waitLoop p status e) (hs : s.advance (.waitLoop p status e) = some s') :
    s'.Inv σ := by
  obtain ⟨ys, hys, rfl, hin, hchild, hother⟩ := h.place_eq hpc
  cases ys with
  | nil =>
      rw [advance_waitLoop_nil] at hs
      cases hs
      have hgone : p ∉ σ s.kernel.running := fun hp => List.not_mem_nil (hin hp)
      have hreaped : s.wasChild s.kernel.running = true → s.Reaped σ s.kernel.running p status := fun hc =>
        (hchild hc).resolve_left hgone
      have hright : Right (s.move .user) σ ⟨s.kernel.running, p, s.wasChild s.kernel.running, status⟩ :=
        ⟨fun hc => ⟨(hreaped hc).exits, hgone⟩, fun hc => (hother hc).2⟩
      refine h.update ((h.1.move .user).returned hright fun w hw hc hc' hp => ?_) (fun t ht => ?_) ?_
      · exact ((hreaped hc).once w hw hc' hp.symm).symm
      · exact (Keeps.move ht .user).trans (.returned (s := s.move .user) ht.symm)
      · exact .of_pc (Function.update_self ..) ((h.exiting_eq hpc).trans rfl) trivial
  | cons c ys =>
      rw [advance_waitLoop_cons] at hs
      obtain ⟨xs, hx⟩ := hys
      have hc : c ∈ σ s.kernel.running := hx ▸ List.mem_append_right _ List.mem_cons_self
      split_ifs at hs with hp <;> cases hs
      · obtain ⟨-, rfl⟩ := hp
        refine h.call_move hout (fun q hq => ?_) hpc rfl ⟨rfl, ?_, hc, fun hnil => ?_⟩
        · cases List.mem_singleton.mp hq
        · by_contra hwas
          exact (hother (Bool.eq_false_iff.mpr hwas)).1 hc
        · have hself : (s.kernel.enter (ThreadOp.semaphoreDec (waitSema c)).body).cont s.kernel.running =
              [.semaphoreDec (.sem (waitSema c))] := by
            rw [enter_self, hout.2.1]
            rfl
          have hnil' : pending (.sem (waitSema c))
              ((s.kernel.enter (ThreadOp.semaphoreDec (waitSema c)).body).cont s.kernel.running) = [] := hnil
          rw [hself, pending_cons_of_eq rfl] at hnil'
          cases hnil'
      · have hne : p ≠ c := fun he => hp ⟨(h.1.child _ c hc).2, he.symm⟩
        refine h.move hpc rfl ⟨ys, ⟨xs ++ [c], by rw [← hx]; simp⟩, ?_, fun hp => ?_, ?_, hother⟩
        · exact h.1.lists.listNext_eq hx.symm
        · exact (List.mem_cons.mp (hin hp)).resolve_left hne
        · exact fun hw => (hchild hw).imp_right fun hr => ⟨hr.exits, hr.removed, hr.once⟩

/-- Behind `semaphore_dec` the exit code is what the child passed to `exit_process`. -/
theorem waitDec (h : s.Inv σ) (hout : s.Outside) {p chld : ℕ} (hpc : s.pc s.kernel.running = .waitDec p chld) :
    (s.move (.waitRemove p (s.exitCode chld) chld)).Inv σ := by
  obtain ⟨rfl, hwas, hin, hpend⟩ := h.place_eq hpc
  obtain ⟨status, he⟩ := Option.isSome_iff_exists.mp (hpend (by rw [hout.2.1]; rfl))
  refine h.move hpc rfl ⟨rfl, hwas, hin, ?_⟩
  rw [h.1.code _ _ he]
  exact he

/-- The child is taken out, and its pointer leads on. -/
theorem waitRemove (h : s.Inv σ) (hout : s.Outside) {p chld : ℕ} {status : BitVec 32}
    (hpc : s.pc s.kernel.running = .waitRemove p status chld) :
    Inv { (s.move (.waitInc p status chld)).call (.semaphoreInc (reapSema chld)) with
        children := listRemove s.children s.kernel.running (node chld) }
      (Function.update σ s.kernel.running ((σ s.kernel.running).erase chld)) := by
  obtain ⟨rfl, hwas, hin, he⟩ := h.place_eq hpc
  have hnodup := (h.1.lists.holds s.kernel.running).nodup
  have hout' : Outside (s.move (.waitInc chld status chld)) := hout
  have hcall := (h.1.move (.waitInc chld status chld)).call hout' fun q hq => absurd hq (not_posting_reap chld q)
  have hgone : ∀ q, chld ∉ Function.update σ s.kernel.running ((σ s.kernel.running).erase chld) q := by
    intro q hq
    rw [Function.update_apply] at hq
    split_ifs at hq with hr
    · exact hnodup.not_mem_erase hq
    · exact h.1.lists.disjoint _ _ (Ne.symm hr) chld hin hq
  refine h.update (hcall.remove hin) (fun t ht => ?_) (.of_pc (Function.update_self ..) ?_ ?_)
  · exact ((Keeps.move ht _).trans (.call (s := s.move _) ht _)).trans (.remove hcall hin ht)
  · exact (h.exiting_eq hpc).trans rfl
  · refine ⟨rfl, hwas, ⟨he, hgone _, fun w hw hc hp hpid => ?_⟩, hgone, ?_⟩
    · exact ((h.1.right w hw).1 hc).2 (by rw [hp, hpid]; exact hin)
    · obtain ⟨xs, ys, hxs, hx, hx'⟩ := List.exists_erase_eq hin
      refine ⟨ys, ?_, ?_⟩
      · rw [Function.update_self, hx']
        exact List.suffix_append xs ys
      · exact (h.1.lists.next_remove hin (.inl rfl)).trans (h.1.lists.listNext_eq hx)

theorem waitInc (h : s.Inv σ) {p chld : ℕ} {status : BitVec 32}
    (hpc : s.pc s.kernel.running = .waitInc p status chld) :
    (s.move (.waitLoop p status (listNext s.children (node chld)))).Inv σ := by
  obtain ⟨rfl, hwas, hr, -, ys, hys, hnext⟩ := h.place_eq hpc
  refine h.move hpc rfl ⟨ys, hys, hnext, fun hp => absurd hp hr.removed, fun _ => ?_, fun hw => ?_⟩
  · exact .inr ⟨hr.exits, hr.removed, hr.once⟩
  · exact absurd (hwas.symm.trans hw) Bool.noConfusion

theorem exitLoop (h : s.Inv σ) (hout : s.Outside) {el : Elem ℕ ℕ} (hpc : s.pc s.kernel.running = .exitLoop el)
    (hs : s.advance (.exitLoop el) = some s') : s'.Inv σ := by
  unfold advance at hs
  dsimp only at hs
  split_ifs at hs
  · cases hs
    refine h.call_move hout (fun p hp => ?_) hpc rfl trivial
    have heq := List.mem_singleton.mp hp
    simp only [Stmt.semaphoreInc.injEq, Sema.sem.injEq, waitSema] at heq
    obtain rfl : p = s.kernel.running := by omega
    rw [h.exiting_eq hpc]
    rfl
  · obtain ⟨t, -, hs⟩ := Option.map_eq_some_iff.mp hs
    split_ifs at hs <;> subst hs
    · exact h.call_move hout (fun p hp => absurd hp (not_posting_reap t p)) hpc rfl trivial
    · exact h.move hpc rfl trivial

/-- **One step of a process** in the functions above. -/
theorem advance (h : s.Inv σ) (hout : s.Outside) (hs : s.advance (s.pc s.kernel.running) = some s') :
    ∃ σ', s'.Inv σ' := by
  cases hpc : s.pc s.kernel.running with
  | user =>
      rw [hpc] at hs
      cases hs
  | exited =>
      rw [hpc] at hs
      cases hs
  | forking =>
      rw [hpc] at hs
      cases hs
      have hmove := h.1.move .user
      refine ⟨_, h.update hmove.forkProcess (fun t ht => ?_)
        (.of_pc (Function.update_self ..) ((h.exiting_eq hpc).trans rfl) trivial)⟩
      exact (Keeps.move ht _).trans (.forkProcess hmove ht)
  | waitLoop p status e => exact ⟨σ, h.waitLoop hout hpc (hpc ▸ hs)⟩
  | waitDec p chld =>
      rw [hpc] at hs
      cases hs
      exact ⟨σ, h.waitDec hout hpc⟩
  | waitRemove p status chld =>
      rw [hpc] at hs
      cases hs
      exact ⟨_, h.waitRemove hout hpc⟩
  | waitInc p status chld =>
      rw [hpc] at hs
      cases hs
      exact ⟨σ, h.waitInc hpc⟩
  | exitLoop el => exact ⟨σ, h.exitLoop hout hpc (hpc ▸ hs)⟩
  | exitInc chld =>
      rw [hpc] at hs
      cases hs
      exact ⟨σ, h.move hpc rfl trivial⟩
  | exitSelf =>
      rw [hpc] at hs
      cases hs
      exact ⟨σ, h.call_move hout (fun p hp => by cases List.mem_singleton.mp hp) hpc rfl trivial⟩
  | exitReap =>
      rw [hpc] at hs
      cases hs
      exact ⟨σ, h.call_move hout (fun p hp => by cases List.mem_singleton.mp hp) hpc rfl trivial⟩

theorem fork (h : s.Inv σ) (hidle : s.Idle) :
    Inv (({ s with toMachine := s.forkProcess.1 }.call (.threadUnblock s.forkProcess.2)).move .forking)
      (Function.update σ s.kernel.running (σ s.kernel.running ++ [s.kernel.nextTid])) := by
  have hfork := h.1.forkProcess
  have hne : s.kernel.running ≠ s.kernel.nextTid := Nat.ne_of_lt h.1.sane.exists_running
  have hout : Outside { s with toMachine := s.forkProcess.1 } := by
    refine ⟨hidle.1.1, ?_, ?_⟩
    · exact (Function.update_of_ne hne _ _).trans hidle.1.2.1
    · exact (Function.update_of_ne hne _ _).trans hidle.1.2.2
  refine h.update ((hfork.call hout fun p hp => ?_).move .forking) (fun t ht => ?_)
    (.of_pc (Function.update_self ..) ((h.exiting_eq hidle.2).trans rfl) trivial)
  · cases List.mem_singleton.mp hp
  · exact (Keeps.forkProcess h.1 ht).trans (.call_move (s := { s with toMachine := s.forkProcess.1 }) ht _ _)

theorem wait (h : s.Inv σ) (hidle : s.Idle) (p : ℕ) :
    Inv { s.move (.waitLoop p (-1) (listBegin s.children s.kernel.running)) with
      wasChild := Function.update s.wasChild s.kernel.running (decide (p ∈ s.childrenOf s.kernel.running)) } σ := by
  have hc := h.1.move (.waitLoop p (-1) (listBegin s.children s.kernel.running))
  refine h.update ⟨hc.sane, hc.lists, hc.child, hc.fresh, hc.code, hc.posted, hc.posting, hc.right, hc.once⟩
    (fun t ht => (Keeps.move ht _).trans (.called (s := s.move _) ht _)) (.of_pc (Function.update_self ..) ?_ ?_)
  · exact (h.exiting_eq hidle.2).trans rfl
  · refine ⟨_, List.suffix_refl _, h.1.lists.listBegin_eq _, id, fun hw => .inl ?_, fun hw => ⟨?_, rfl⟩⟩
    · have hw' : Function.update s.wasChild s.kernel.running (decide (p ∈ s.childrenOf s.kernel.running))
          s.kernel.running = true := hw
      rw [Function.update_self, decide_eq_true_eq, h.1.childrenOf_eq] at hw'
      exact hw'
    · have hw' : Function.update s.wasChild s.kernel.running (decide (p ∈ s.childrenOf s.kernel.running))
          s.kernel.running = false := hw
      rw [Function.update_self, decide_eq_false_iff_not, h.1.childrenOf_eq] at hw'
      exact hw'

theorem exit (h : s.Inv σ) (hidle : s.Idle) (status : BitVec 32) :
    Inv { s.move (.exitLoop (listBegin s.children s.kernel.running)) with
      exitCode := Function.update s.exitCode s.kernel.running status
      exits := Function.update s.exits s.kernel.running (some status) } σ := by
  have hnone := h.exits_none hidle.2 rfl
  refine h.update ((h.1.move _).exit hnone status)
    (fun t ht => (Keeps.move ht _).trans (.exit (s := s.move _) hnone status ht))
    (.of_pc (Function.update_self ..) ?_ trivial)
  have hself : Function.update s.exits s.kernel.running (some status) s.kernel.running = some status :=
    Function.update_self ..
  exact (congrArg Option.isSome hself).trans rfl

/-- A step of the kernel, on what all processes rely on. -/
theorem kernel (h : s.Inv σ) {k' : Kernel M} (hsane : k'.Sane) (hnext : s.kernel.nextTid ≤ k'.nextTid)
    (hnew : ∀ t, s.kernel.nextTid ≤ t → k'.nextTid ≤ t → ∀ x, pending x (k'.cont t) = [])
    (hposted : ∀ p, k'.value (.sem (waitSema p)) ≠ 0 → (s.exits p).isSome)
    (hposting : ∀ t p, .semaphoreInc (.sem (waitSema p)) ∈ pending (.sem (waitSema p)) (k'.cont t) →
      (s.exits p).isSome)
    (hpend : ∀ t p, pending (.sem (waitSema p)) (k'.cont t) = [] →
      pending (.sem (waitSema p)) (s.kernel.cont t) = [] ∨ (s.exits p).isSome) : Inv { s with kernel := k' } σ := by
  refine ⟨⟨hsane, h.1.lists, fun q c hc => ?_, fun t ht => ?_, h.1.code, hposted, hposting, h.1.right, h.1.once⟩,
    fun t => ?_⟩
  · exact ⟨Nat.lt_of_lt_of_le (h.1.child q c hc).1 hnext, (h.1.child q c hc).2⟩
  · have ht' := Nat.le_trans hnext ht
    exact ⟨(h.1.fresh t ht').1, (h.1.fresh t ht').2.1, hnew t ht' ht⟩
  · have hkeeps : Keeps s { s with kernel := k' } σ σ t :=
      ⟨rfl, rfl, rfl, fun _ hw _ => hw, fun _ _ he => he, rfl, fun _ _ hout => ⟨hout, rfl⟩, hpend t⟩
    exact hkeeps.at_ (h.2 t)

end Inv

end Processes

/-! ### Steps of the kernel -/

section
variable {M : Type} [ThreadQueues M]

namespace Processes
variable {s s' : Processes M} {σ : ℕ → List ℕ}

/-! What a step can be. -/

theorem step_user {op : ThreadOp} (hs : s.step (.kernel (.call op)) = some s') : s.pc s.kernel.running = .user :=
  (Option.ite_none_right_eq_some.mp hs).1

theorem step_kernel {act : Action} (hs : s.step (.kernel act) = some s') :
    ∃ k', s.kernel.step act = some k' ∧ s' = { s with kernel := k' } := by
  have hmap : (s.kernel.step act).map (fun k => { s with kernel := k }) = some s' := by
    cases act with
    | call op => exact (Option.ite_none_right_eq_some.mp hs).2
    | run => exact hs
    | interrupt => exact hs
  obtain ⟨k', hk, he⟩ := Option.map_eq_some_iff.mp hmap
  exact ⟨k', hk, he.symm⟩

theorem step_fork (hs : s.step .fork = some s') : s.Idle ∧
    s' = ({ s with toMachine := s.forkProcess.1 }.call (.threadUnblock s.forkProcess.2)).move .forking := by
  obtain ⟨hidle, hs⟩ := Option.ite_none_right_eq_some.mp hs
  exact ⟨hidle, (Option.some.inj hs).symm⟩

theorem step_wait {p : ℕ} (hs : s.step (.wait p) = some s') : s.Idle ∧
    s' = { s.move (.waitLoop p (-1) (listBegin s.children s.kernel.running)) with
      wasChild := Function.update s.wasChild s.kernel.running (decide (p ∈ s.childrenOf s.kernel.running)) } := by
  obtain ⟨hidle, hs⟩ := Option.ite_none_right_eq_some.mp hs
  exact ⟨hidle, (Option.some.inj hs).symm⟩

theorem step_exit {status : BitVec 32} (hs : s.step (.exit status) = some s') : s.Idle ∧
    s' = { s.move (.exitLoop (listBegin s.children s.kernel.running)) with
      exitCode := Function.update s.exitCode s.kernel.running status
      exits := Function.update s.exits s.kernel.running (some status) } := by
  obtain ⟨hidle, hs⟩ := Option.ite_none_right_eq_some.mp hs
  exact ⟨hidle, (Option.some.inj hs).symm⟩

theorem advance_of_step (hs : s.step .advance = some s') : s.Outside ∧ s.advance (s.pc s.kernel.running) = some s' :=
  Option.ite_none_right_eq_some.mp hs

namespace Inv

/-- One statement of the running thread. -/
theorem run (h : s.Inv σ) {k' : Kernel M} (hs : s.kernel.step .run = some k') : Inv { s with kernel := k' } σ := by
  obtain ⟨stmt, xs, hc, he, -⟩ := run_effect h.1.sane hs
  have hothers : ∀ t x, t ≠ s.kernel.running → pending x (k'.cont t) = pending x (s.kernel.cont t) := fun t x ht =>
    he.pending_others ht fun hn => (h.1.fresh t hn.ge).2.2 x
  -- what the statement does to the `wait_sema` of a process that has not exited
  have hself : ∀ p, ¬ (s.exits p).isSome → k'.value (.sem (waitSema p)) = 0 ∧
      (.semaphoreInc (.sem (waitSema p)) ∉ pending (.sem (waitSema p)) (k'.cont s.kernel.running)) ∧
      (pending (.sem (waitSema p)) (k'.cont s.kernel.running) = [] →
        pending (.sem (waitSema p)) (s.kernel.cont s.kernel.running) = []) := by
    intro p hp
    have hv : s.kernel.value (.sem (waitSema p)) = 0 := by
      by_contra hne
      exact hp (h.1.posted p hne)
    have hno : .semaphoreInc (.sem (waitSema p)) ∉ pending (.sem (waitSema p)) (s.kernel.cont s.kernel.running) :=
      fun hin => hp (h.1.posting _ p hin)
    by_cases hx : stmt.sema? = some (.sem (waitSema p))
    · rw [hc, pending_cons_of_eq hx] at hno
      have hinc : stmt ≠ .semaphoreInc (.sem (waitSema p)) := fun hstmt => hno (hstmt ▸ List.mem_cons_self)
      obtain ⟨hv', old, hcont⟩ := he.waits (hc ▸ h.1.sane.formed _) hx hinc hv
      rw [hcont, pending_cons_of_eq rfl]
      refine ⟨hv', fun hin => ?_, fun hnil => absurd hnil (List.cons_ne_nil _ _)⟩
      rcases List.mem_cons.mp hin with hd | hin
      · cases hd
      · exact hno (List.mem_cons_of_mem _ hin)
    · have hsame : pending (.sem (waitSema p)) (k'.cont s.kernel.running) =
          pending (.sem (waitSema p)) (s.kernel.cont s.kernel.running) := by
        rw [he.self, hc, pending_cons_of_ne hx]
        exact pending_contAfter _ hx xs
      rw [hsame, he.value, s.kernel.valueAfter_of_ne hx]
      exact ⟨hv, hno, id⟩
  refine h.kernel (he.sane h.1.sane hc) he.nextTid (fun t ht _ x => ?_) (fun p hp => ?_) (fun t p hp => ?_)
    fun t p hp => ?_
  · rw [hothers t x (h.1.ne_of_fresh ht)]
    exact (h.1.fresh t ht).2.2 x
  · by_contra hn
    exact hp (hself p hn).1
  · by_cases ht : t = s.kernel.running
    · by_contra hn
      exact (hself p hn).2.1 (ht ▸ hp)
    · rw [hothers t _ ht] at hp
      exact h.1.posting t p hp
  · by_cases ht : t = s.kernel.running
    · by_cases hn : (s.exits p).isSome
      · exact .inr hn
      · exact .inl (ht ▸ (hself p hn).2.2 (ht ▸ hp))
    · rw [hothers t _ ht] at hp
      exact .inl hp

omit [ThreadQueues M] in
/-- A step of the kernel that leaves the semaphores, and what is pending on them. -/
theorem kernel_same (h : s.Inv σ) {k' : Kernel M} (hsane : k'.Sane) (hnext : s.kernel.nextTid ≤ k'.nextTid)
    (hv : k'.value = s.kernel.value)
    (hnew : ∀ t, s.kernel.nextTid ≤ t → ∀ x, pending x (k'.cont t) = pending x (s.kernel.cont t))
    (hp : ∀ t i, pending (.sem i) (k'.cont t) = pending (.sem i) (s.kernel.cont t)) :
    Inv { s with kernel := k' } σ := by
  refine h.kernel hsane hnext (fun t ht _ x => ?_) (fun p hp => ?_) (fun t p hin => ?_) fun t p hnil => ?_
  · exact (hnew t ht x).trans ((h.1.fresh t ht).2.2 x)
  · exact h.1.posted p (hv ▸ hp)
  · exact h.1.posting t p (hp t _ ▸ hin)
  · exact .inl ((hp t _).symm.trans hnil)

/-- **One step**, of the kernel or of a process. -/
theorem step (h : s.Inv σ) {act : ProcessAction} (hok : s.Unrelated act) (hs : s.step act = some s') :
    ∃ σ', s'.Inv σ' := by
  cases act with
  | kernel act =>
      obtain ⟨k', hk, rfl⟩ := step_kernel hs
      cases act with
      | call op =>
          obtain ⟨hidle, hc, rfl⟩ := step_call hk
          refine ⟨σ, h.kernel_same (h.1.sane.step hk) (Nat.le_refl _) rfl (fun t ht x => ?_) fun t i => ?_⟩
          · rw [enter_others _ _ (h.1.ne_of_fresh ht)]
          · by_cases ht : t = s.kernel.running
            · rw [ht, enter_self, hc, List.append_nil]
              exact pending_body (fun he => by subst he; exact hok) (fun he => by subst he; exact hok)
            · rw [enter_others _ _ ht]
      | run => exact ⟨σ, h.run hk⟩
      | interrupt =>
          have hsw := yieldCurrent_switch (step_interrupt hk).2
          exact ⟨σ, h.kernel_same (h.1.sane.step hk) hsw.nextTid.ge hsw.value (fun t _ x => interrupt_pending hk x t)
            fun t i => interrupt_pending hk _ t⟩
  | fork =>
      obtain ⟨hidle, rfl⟩ := step_fork hs
      exact ⟨_, h.fork hidle⟩
  | wait p =>
      obtain ⟨hidle, rfl⟩ := step_wait hs
      exact ⟨σ, h.wait hidle p⟩
  | exit status =>
      obtain ⟨hidle, rfl⟩ := step_exit hs
      exact ⟨σ, h.exit hidle status⟩
  | advance =>
      obtain ⟨hout, hs⟩ := advance_of_step hs
      exact h.advance hout hs

end Inv

theorem inv_start (mem : M) (level : InterruptLevel) (intr : Bool) : (start mem level intr).Inv fun _ => [] := by
  have hpend : ∀ t x, pending x ((initThreads mem (fun _ => 0) level intr).cont t) = [] :=
    fun t x => initThreads_pending mem _ level intr x t
  refine ⟨⟨initThreads_sane mem _ level intr, .of_fresh fun _ => .inr ⟨rfl, rfl, rfl, rfl, rfl⟩, fun q c hc => ?_,
    fun t _ => ⟨rfl, rfl, hpend t⟩, fun p status he => ?_, fun p hp => ?_, fun t p hp => ?_, fun w hw => ?_,
    List.Pairwise.nil⟩, fun t => ⟨rfl, trivial⟩⟩
  · cases hc
  · cases he
  · exact absurd (initThreads_value mem (fun _ => 0) level intr _) hp
  · have hin : .semaphoreInc (.sem (waitSema p)) ∈ pending (.sem (waitSema p))
        ((initThreads mem (fun _ => 0) level intr).cont t) := hp
    rw [hpend] at hin
    cases hin
  · cases hw

/-! ### Waits for others -/

omit [ThreadQueues M] in
/-- A traversal that does not come to `p`: it changes nothing but where the process is. -/
theorem Inv.advance_other (h : s.Inv σ) {p c : ℕ} (status : BitVec 32) {xs ys : List ℕ} (hp : p ∉ σ s.kernel.running)
    (hx : σ s.kernel.running = xs ++ c :: ys) : s.advance (.waitLoop p status (cellAt s.kernel.running (c :: ys))) =
      some (s.move (.waitLoop p status (cellAt s.kernel.running ys))) := by
  have hne : ¬ (s.isProcess c = true ∧ c = p) := by
    rintro ⟨-, rfl⟩
    exact hp (hx ▸ List.mem_append_right _ List.mem_cons_self)
  rw [advance_waitLoop_cons, if_neg hne, h.1.lists.listNext_eq hx]

theorem step_advance (hout : s.Outside) {pc : ProcessPc} (hpc : s.pc s.kernel.running = pc) :
    s.step .advance = s.advance pc := by
  subst hpc
  exact if_pos hout

/-- A traversal that does not come to `p`, to its end. -/
theorem Inv.runs_other {p : ℕ} {status : BitVec 32} (ys : List ℕ) {s : Processes M} (h : s.Inv σ) (hout : s.Outside)
    (hp : p ∉ σ s.kernel.running) (hys : ys <:+ σ s.kernel.running)
    (hpc : s.pc s.kernel.running = .waitLoop p status (cellAt s.kernel.running ys)) :
    Transition.runs Processes.step Unrelated s (List.replicate (ys.length + 1) .advance) = some { s.move .user with
      waits := ⟨s.kernel.running, p, s.wasChild s.kernel.running, status⟩ :: s.waits } := by
  have hok : s.Unrelated .advance := trivial
  induction ys generalizing s with
  | nil =>
      rw [List.length_nil, List.replicate_one, Transition.runs, if_pos hok, step_advance hout hpc, advance_waitLoop_nil]
      rfl
  | cons c ys ih =>
      obtain ⟨xs, hx⟩ := hys
      have hstep := h.advance_other status hp hx.symm
      have hinv := h.waitLoop hout hpc hstep
      have hsuf : ys <:+ σ s.kernel.running := ⟨xs ++ [c], by rw [List.append_assoc]; exact hx⟩
      have hself := Function.update_self s.kernel.running (ProcessPc.waitLoop p status (cellAt s.kernel.running ys)) s.pc
      rw [List.length_cons, List.replicate_succ, Transition.runs, if_pos hok, step_advance hout hpc, hstep,
        Option.bind_some, ih hinv hout hp hsuf hself trivial]
      simp only [Processes.move, Function.update_idem]

end Processes

end

open Processes

/-- **`wait` and `exit_process` agree** in every run from the first process.  A `wait` for a child returned
what the child passed to `exit_process` before, the child is no child of the caller any more, and no two calls
of a process returned for the same child.  A `wait` for another process returned `-1`, and its steps change
nothing but where the caller is. -/
theorem wait_exit_agree {M : Type} [ThreadQueues M] {mem : M} {level : InterruptLevel} {intr : Bool}
    {s : Processes M} (h : Transition.Reach Processes.step Unrelated (start mem level intr) s) :
    (∀ w ∈ s.waits, w.child = true → s.exits w.pid = some w.status ∧ w.pid ∉ s.childrenOf w.parent) ∧
      (s.waits.Pairwise fun w w' => w.child = true → w'.child = true → w.parent = w'.parent → w.pid ≠ w'.pid) ∧
      (∀ w ∈ s.waits, w.child = false → w.status = -1) ∧
      (∀ p status e, s.Outside → s.pc s.kernel.running = .waitLoop p status e → p ∉ s.childrenOf s.kernel.running →
        (∃ e', s.step .advance = some (s.move (.waitLoop p status e'))) ∨
          s.step .advance = some { s.move .user with
            waits := ⟨s.kernel.running, p, s.wasChild s.kernel.running, status⟩ :: s.waits }) ∧
      ∀ p, s.Idle → p ∉ s.childrenOf s.kernel.running →
        Transition.runs Processes.step Unrelated s
            (.wait p :: List.replicate ((s.childrenOf s.kernel.running).length + 1) .advance) =
          some { s with
            wasChild := Function.update s.wasChild s.kernel.running false
            waits := ⟨s.kernel.running, p, false, -1⟩ :: s.waits } := by
  obtain ⟨σ, hi⟩ : ∃ σ, s.Inv σ := by
    refine h.invariant (I := fun s => ∃ σ, s.Inv σ) ⟨_, inv_start mem level intr⟩ ?_
    rintro s act s' ⟨σ, hi⟩ hok hs
    exact hi.step hok hs
  refine ⟨fun w hw hc => ?_, hi.1.once, fun w hw => (hi.1.right w hw).2, fun p status e hout hpc hp => ?_,
    fun p hidle hp => ?_⟩
  · rw [hi.1.childrenOf_eq]
    exact (hi.1.right w hw).1 hc
  · rw [hi.1.childrenOf_eq] at hp
    rw [step_advance hout hpc]
    obtain ⟨ys, ⟨xs, hx⟩, rfl, -⟩ := hi.place_eq hpc
    cases ys with
    | nil => exact .inr (advance_waitLoop_nil p status)
    | cons c ys =>
        have hadv := hi.advance_other status hp hx.symm
        exact .inl ⟨cellAt s.kernel.running ys, hadv⟩
  · have hdec : decide (p ∈ s.childrenOf s.kernel.running) = false := decide_eq_false hp
    have hwait : s.step (.wait p) = some { s.move (.waitLoop p (-1) (listBegin s.children s.kernel.running)) with
        wasChild := Function.update s.wasChild s.kernel.running false } := by
      rw [← hdec]
      exact if_pos hidle
    have hinv := hi.wait hidle p
    rw [hdec] at hinv
    have hok : s.Unrelated (.wait p) := trivial
    have hpc : Function.update s.pc s.kernel.running (.waitLoop p (-1) (listBegin s.children s.kernel.running))
        s.kernel.running = .waitLoop p (-1) (cellAt s.kernel.running (σ s.kernel.running)) := by
      rw [Function.update_self, hi.1.lists.listBegin_eq]
    have hback : Function.update s.pc s.kernel.running .user = s.pc := by
      rw [← hidle.2, Function.update_eq_self]
    rw [hi.1.childrenOf_eq] at hp ⊢
    rw [Transition.runs, if_pos hok, hwait, Option.bind_some,
      hinv.runs_other (σ s.kernel.running) hidle.1 hp (List.suffix_refl _) hpc]
    simp only [Processes.move, Function.update_idem, Function.update_self, hback]

/-- Process `4` exits with status `7`; then its parent `2` waits for it, whose other child is `5`. -/
theorem wait_exit_agree_reaped :
    let mem : ListMem Queue ℕ := ⟨fun _ => null, fun _ => null, fun _ => 0⟩
    let acts : List ProcessAction := [.fork, .kernel .run, .advance, .exit 0, .advance, .kernel .run, .advance,
      .advance, .kernel .run, .advance, .advance, .kernel .run, .advance, .kernel .run, .fork, .kernel .run, .advance,
      .kernel (.call .yieldCurrent), .kernel .run, .exit 7, .advance, .kernel .run, .advance, .kernel .run, .wait 4,
      .advance, .kernel .run, .advance, .advance, .kernel .run, .advance, .advance, .advance]
    ∃ s, Transition.runs Processes.step Unrelated (start mem .enabled true) acts = some s ∧
      s.waits = [⟨2, 4, true, 7⟩] ∧ s.exits 4 = some 7 ∧ 4 ∉ s.childrenOf 2 := by
  intro mem acts
  have hrun : (Transition.runs Processes.step Unrelated (start mem .enabled true) acts).map (fun s => s.waits) =
      some [⟨2, 4, true, 7⟩] := by
    decide +kernel
  obtain ⟨s, hs, hw⟩ := Option.map_eq_some_iff.mp hrun
  have hin : ⟨2, 4, true, 7⟩ ∈ s.waits := hw ▸ List.mem_singleton_self _
  exact ⟨s, hs, hw, (wait_exit_agree (.of_runs hs)).1 _ hin rfl⟩

end Dunkos
