import Dunkos.Places

/-! # Threads that have exited (`thread.c`)

`schedule_next` frees `prev` behind `switch_to` when it is dead.  There `prev` is the local variable of the thread that
resumes, which is that thread itself.  `ExitLog` records who has called `exit_thread`, who stands in `schedule_next`, the
returns from it and the calls of `kfree`, in any run of the kernel.  `dead_threads_reaped_iff` says in which runs the dead are
reaped, and `freed_eq_nil` that nobody is in proper use. -/

namespace Dunkos

open ThreadQueues Transition

/-! ### The next thread -/

namespace Kernel
variable {M : Type} [ThreadQueues M]

/-- The lists behind `list_push_back` in `yield_current`. -/
def queued (k : Kernel M) : M :=
  if k.status k.running ≠ .blocked then pushBack k.mem .ready (.node k.running) else k.mem

/-- The lists with which a statement calls `schedule_next`, if it does. -/
def listsAt (k : Kernel M) : Stmt → Option M
  | .yieldCurrent => some k.queued
  | .blockCurrent => some k.mem
  | .waitBlock _ => some k.mem
  | .exitThread => some k.mem
  | .threadBlock thr => if thr = k.running then some k.mem else none
  | .semaphoreDec s => if k.value s = 0 then some (pushBack k.mem (.sema s) (.node k.running)) else none
  | .decLoop s value _ => if value = 0 then some (pushBack k.mem (.sema s) (.node k.running)) else none
  | _ => none

/-- The same for a step. -/
def atSchedule (k : Kernel M) : Action → Option M
  | .call _ => none
  | .run => k.next?.bind k.listsAt
  | .interrupt => some k.queued

/-- The first that is ready, or the idle thread. -/
def firstReady (m : M) (idle : ℕ) : Option ℕ := if isEmpty m .ready then some idle else (popFront m .ready).2.node?

/-- The thread to which a step switches, if it does. -/
def upNext (k : Kernel M) (act : Action) : Option ℕ := (k.atSchedule act).bind fun m => firstReady m k.idle

/-- The step is in `exit_thread`. -/
def Exiting (k : Kernel M) (act : Action) : Prop := act = .run ∧ k.next? = some .exitThread

instance (k : Kernel M) (act : Action) : Decidable (k.Exiting act) := inferInstanceAs (Decidable (_ ∧ _))

end Kernel

/-- `exited` have called `exit_thread`, and `suspended` have called `switch_to` and not come back.  `returns` are the returns
from `schedule_next`, each with those that had exited, and `kfrees` the threads given to `kfree`, both with the kernel at that
time. -/
structure ExitLog (M : Type) where
  kernel : Kernel M
  exited : List ℕ
  suspended : List ℕ
  returns : List (List ℕ × Kernel M)
  kfrees : List (ℕ × Kernel M)

namespace ExitLog
variable {M : Type} [ThreadQueues M]

def start (k : Kernel M) : ExitLog M where
  kernel := k
  exited := []
  suspended := []
  returns := []
  kfrees := []

/-- Who has exited when a step calls `schedule_next`. -/
def exitedAt (s : ExitLog M) (act : Action) : List ℕ :=
  if s.kernel.Exiting act then s.kernel.running :: s.exited else s.exited

/-- Who stands in `schedule_next` when a step is there. -/
def insideAt (s : ExitLog M) : List ℕ := s.kernel.running :: s.suspended

/-- A step of the kernel.  A thread that the switch resumes returns from `schedule_next`; a new one begins in
`start_thread`. -/
def step (s : ExitLog M) (act : Action) : Option (ExitLog M) :=
  (s.kernel.step act).map fun k =>
    let freed := k.freed.take (k.freed.length - s.kernel.freed.length)
    { kernel := k
      exited := s.exitedAt act
      suspended := if (s.kernel.atSchedule act).isSome then s.insideAt.erase k.running else s.suspended
      returns :=
        if (s.kernel.atSchedule act).isSome ∧ k.running ∈ s.insideAt then (s.exitedAt act, k) :: s.returns else s.returns
      kfrees := freed.map (fun t => (t, k)) ++ s.kfrees }

/-- A thread has exited, or exits, and the step switches to one that stands in `schedule_next`. -/
def Resumes (s : ExitLog M) (act : Action) : Prop :=
  s.exitedAt act ≠ [] ∧ ∃ t ∈ s.insideAt, s.kernel.upNext act = some t

instance (s : ExitLog M) (act : Action) : Decidable (s.Resumes act) :=
  inferInstanceAs (Decidable (_ ∧ ∃ t ∈ s.insideAt, _))

end ExitLog

/-! ### What it is for -/

/-- At every return from `schedule_next` each thread that has exited has been freed, once; and nobody is freed who runs or is
on a list. -/
structure Reaps {M : Type} [ThreadQueues M] (s : ExitLog M) : Prop where
  freed : ∀ r ∈ s.returns, ∀ t ∈ r.1, r.2.freed.count t = 1
  unused : ∀ f ∈ s.kfrees, f.1 ≠ f.2.running ∧ ∀ l, f.1 ∉ members f.2.mem l

/-! ### Switches -/

namespace Kernel
variable {M : Type} [ThreadQueues M] {k k' : Kernel M} {act : Action}

/-- A switch from `schedule_next`, called with the lists `m`. -/
structure Passes (k : Kernel M) (m : M) (k' : Kernel M) : Prop where
  next : firstReady m k.idle = some k'.running
  freed : k'.freed = if k'.status k'.running = .dead then k'.running :: k.freed else k.freed

/-- The same thread goes on. -/
structure Stays (k k' : Kernel M) : Prop where
  running : k'.running = k.running
  freed : k'.freed = k.freed

theorem nextThread_eq (k : Kernel M) : k.nextThread.2 = firstReady k.mem k.idle := by
  unfold nextThread firstReady
  split_ifs <;> rfl

theorem scheduleNext_passes (h : k.scheduleNext = some k') : Passes k k.mem k' := by
  have hnext := k.nextThread_eq
  have hthreads : k.nextThread.1.toThreads = k.toThreads := by
    unfold nextThread
    split_ifs <;> rfl
  unfold scheduleNext at h
  generalize k.nextThread = r at h hnext hthreads
  obtain ⟨⟨th, m⟩, next⟩ := r
  dsimp only at hnext hthreads
  subst hthreads
  cases next with
  | none => cases h
  | some t =>
      dsimp only at h
      split_ifs at h with hlt hdead <;> cases h
      · exact ⟨hnext.symm, (if_pos hdead).symm⟩
      · exact ⟨hnext.symm, (if_neg hdead).symm⟩

theorem yieldCurrent_passes (h : k.yieldCurrent = some k') : Passes k k.queued k' := by
  unfold yieldCurrent at h
  unfold queued
  split_ifs at h ⊢ with hs
  · have hp := scheduleNext_passes h
    exact ⟨hp.next, hp.freed⟩
  · exact scheduleNext_passes h

theorem blockCurrent_passes (h : k.blockCurrent = some k') : Passes k k.mem k' := by
  have hp := yieldCurrent_passes h
  have hq : (k.disableInterrupts.setStatus k.running .blocked).queued = k.mem :=
    if_neg fun hne => hne (Function.update_self ..)
  rw [hq] at hp
  exact ⟨hp.next, hp.freed⟩

omit [ThreadQueues M] in
/-- Nobody is dead by another status. -/
theorem dead_of_setStatus {thr t : ℕ} {st : ThreadStatus} (hst : st ≠ .dead) (h : (k.setStatus thr st).status t = .dead) :
    k.status t = .dead := by
  have h' : Function.update k.status thr st t = .dead := h
  rcases eq_or_ne t thr with rfl | hne
  · rw [Function.update_self] at h'
    exact absurd h' hst
  · rwa [Function.update_of_ne hne] at h'

theorem blockCurrent_dead (h : k.blockCurrent = some k') {t : ℕ} (ht : k'.status t = .dead) : k.status t = .dead := by
  rw [(yieldCurrent_switch h).status] at ht
  exact dead_of_setStatus (k := k) (by simp) ht

theorem threadUnblock_dead {thr t : ℕ} (ht : (k.threadUnblock thr).status t = .dead) : k.status t = .dead := by
  rw [threadUnblock_eq] at ht
  exact dead_of_setStatus (k := k) (by simp) ht

theorem threadUnblock_freed (k : Kernel M) (thr : ℕ) : (k.threadUnblock thr).freed = k.freed := by
  rw [threadUnblock_eq]
  rfl

/-- What a statement of `semaphore_inc` does to switches and statuses: nothing, but for a waiter that is ready. -/
theorem wakeWaiter_stays {s : Sema} (h : k.wakeWaiter s = some k') :
    Stays k k' ∧ ∀ t, k'.status t = .dead → k.status t = .dead := by
  unfold wakeWaiter at h
  split_ifs at h with he
  · cases h
    exact ⟨⟨rfl, rfl⟩, fun _ => id⟩
  · generalize popFront k.mem (.sema s) = r at h
    obtain ⟨m, el⟩ := r
    dsimp only at h
    cases hw : el.node? with
    | none =>
        rw [hw] at h
        cases h
    | some w =>
        rw [hw] at h
        cases h
        have hfreed := threadUnblock_freed { k with mem := m } w
        exact ⟨⟨(threadUnblock_frame { k with mem := m } w).2, hfreed⟩,
          fun t ht => threadUnblock_dead (k := { k with mem := m }) ht⟩

theorem semaphoreInc_stays {s : Sema} (h : k.semaphoreInc s = some k') :
    Stays k k' ∧ ∀ t, k'.status t = .dead → k.status t = .dead := by
  obtain ⟨k₁, h₁, rfl⟩ := Option.map_eq_some_iff.mp h
  obtain ⟨hs, hd⟩ := wakeWaiter_stays h₁
  exact ⟨⟨hs.running, hs.freed⟩, hd⟩

/-- Either a step switches with the lists at its `schedule_next`, or the same thread goes on. -/
inductive Turn (k k' : Kernel M) : Option M → Prop
  | passes {m : M} (h : Passes k m k') : Turn k k' (some m)
  | stays (h : Stays k k') : Turn k k' none

/-- Only these fields make a difference. -/
theorem Turn.congr {k₁ : Kernel M} {o : Option M} (h : Turn k₁ k' o) (hi : k₁.idle = k.idle) (hr : k₁.running = k.running)
    (hf : k₁.freed = k.freed) : Turn k k' o := by
  cases h with
  | passes h => exact .passes ⟨hi ▸ h.next, hf ▸ h.freed⟩
  | stays h => exact .stays ⟨h.running.trans hr, h.freed.trans hf⟩

theorem decLoop_turn {s : Sema} {value : ℕ} {old : InterruptLevel} (h : k.decLoop s value old = some k') :
    Turn k k' (if value = 0 then some (pushBack k.mem (.sema s) (.node k.running)) else none) ∧
      ∀ t, k'.status t = .dead → k.status t = .dead := by
  unfold decLoop at h
  split_ifs at h ⊢ with hv
  · have hp := blockCurrent_passes h
    exact ⟨.passes ⟨hp.next, hp.freed⟩, fun t ht => blockCurrent_dead h ht⟩
  · cases h
    exact ⟨.stays ⟨rfl, rfl⟩, fun _ => id⟩

theorem threadBlock_turn {thr : ℕ} (h : k.threadBlock thr = some k') :
    Turn k k' (if thr = k.running then some k.mem else none) ∧ ∀ t, k'.status t = .dead → k.status t = .dead := by
  unfold threadBlock at h
  split_ifs at h ⊢
  · exact ⟨.passes (blockCurrent_passes h), fun t => blockCurrent_dead h⟩
  · cases h
    exact ⟨.stays ⟨rfl, rfl⟩, fun t => dead_of_setStatus (k := k) (by simp)⟩

/-- Who is dead behind a statement was dead before, or exits. -/
theorem exec_dead {stmt : Stmt} {xs : List Stmt} (h : (k.pop xs).exec stmt = some k') {t : ℕ} (ht : k'.status t = .dead) :
    k.status t = .dead ∨ stmt = .exitThread ∧ t = k.running := by
  cases stmt with
  | yieldCurrent => exact .inl ((yieldCurrent_switch h).status ▸ ht)
  | blockCurrent => exact .inl (blockCurrent_dead h ht)
  | waitBlock c => exact .inl (blockCurrent_dead h ht)
  | threadBlock thr => exact .inl ((threadBlock_turn (k := k.pop xs) h).2 t ht)
  | threadUnblock thr =>
      cases h
      exact .inl (threadUnblock_dead (k := k.pop xs) ht)
  | exitThread =>
      rw [(scheduleNext_switch h).status] at ht
      have hst : Function.update k.status k.running .dead t = .dead := ht
      rcases eq_or_ne t k.running with rfl | hne
      · exact .inr ⟨rfl, rfl⟩
      · rw [Function.update_of_ne hne] at hst
        exact .inl hst
  | createThread =>
      cases h
      have hnew : (k.pop xs).newThread.status t = .dead := threadUnblock_dead ht
      exact .inl (dead_of_setStatus (k := k.pop xs) (by simp) hnew)
  | semaphoreInc s => exact .inl ((semaphoreInc_stays (k := k.pop xs) h).2 t ht)
  | semaphoreDec s => exact .inl ((decLoop_turn (k := (k.pop xs).disableInterrupts) h).2 t ht)
  | decLoop s value old => exact .inl ((decLoop_turn (k := k.pop xs) h).2 t ht)
  | signalAll c l =>
      have h' : (if isEmpty k.mem (.cond c) then k.pop xs
          else (k.pop xs).enter (condvarSignalOne c l ++ condvarSignalAll c l)) = k' := Option.some.inj h
      split_ifs at h' <;> subst h' <;> exact .inl ht
  | _ =>
      cases h
      exact .inl ht

theorem exec_turn {stmt : Stmt} {xs : List Stmt} (h : (k.pop xs).exec stmt = some k') : Turn k k' (k.listsAt stmt) := by
  cases stmt with
  | yieldCurrent => exact (Turn.passes (yieldCurrent_passes (k := k.pop xs) h)).congr rfl rfl rfl
  | blockCurrent => exact (Turn.passes (blockCurrent_passes (k := k.pop xs) h)).congr rfl rfl rfl
  | waitBlock c => exact (Turn.passes (blockCurrent_passes (k := k.pop xs) h)).congr rfl rfl rfl
  | exitThread =>
      have hp := scheduleNext_passes (k := (k.pop xs).disableInterrupts.setStatus (k.pop xs).running .dead) h
      exact (Turn.passes hp).congr rfl rfl rfl
  | threadBlock thr => exact (threadBlock_turn (k := k.pop xs) h).1.congr rfl rfl rfl
  | threadUnblock thr =>
      cases h
      exact .stays ⟨(threadUnblock_frame (k.pop xs) thr).2, threadUnblock_freed (k.pop xs) thr⟩
  | createThread =>
      cases h
      exact .stays ⟨(threadUnblock_frame (k.pop xs).newThread k.nextTid).2,
        threadUnblock_freed (k.pop xs).newThread k.nextTid⟩
  | semaphoreInc s =>
      obtain ⟨hs, -⟩ := semaphoreInc_stays (k := k.pop xs) h
      exact .stays ⟨hs.running, hs.freed⟩
  | semaphoreDec s => exact (decLoop_turn (k := (k.pop xs).disableInterrupts) h).1.congr rfl rfl rfl
  | decLoop s value old => exact (decLoop_turn (k := k.pop xs) h).1.congr rfl rfl rfl
  | signalAll c l =>
      have h' : (if isEmpty k.mem (.cond c) then k.pop xs
          else (k.pop xs).enter (condvarSignalOne c l ++ condvarSignalAll c l)) = k' := Option.some.inj h
      split_ifs at h' <;> subst h' <;> exact .stays ⟨rfl, rfl⟩
  | _ =>
      cases h
      exact .stays ⟨rfl, rfl⟩

/-- **One step** switches with the lists at its `schedule_next`, or the same thread goes on. -/
theorem step_turn (h : k.step act = some k') : Turn k k' (k.atSchedule act) := by
  cases act with
  | call op =>
      obtain ⟨-, -, rfl⟩ := step_call h
      exact .stays ⟨rfl, rfl⟩
  | interrupt =>
      obtain ⟨-, hy⟩ := step_interrupt h
      exact (Turn.passes (yieldCurrent_passes hy)).congr rfl rfl rfl
  | run =>
      obtain ⟨stmt, xs, hc, hx⟩ := step_run h
      show Turn k k' (k.next?.bind k.listsAt)
      rw [next?_of_cont hc]
      exact exec_turn hx

/-- Who is dead behind a step was dead before, or exits. -/
theorem step_dead (h : k.step act = some k') {t : ℕ} (ht : k'.status t = .dead) :
    k.status t = .dead ∨ k.Exiting act ∧ t = k.running := by
  cases act with
  | call op =>
      obtain ⟨-, -, rfl⟩ := step_call h
      exact .inl ht
  | interrupt =>
      obtain ⟨-, hy⟩ := step_interrupt h
      exact .inl ((yieldCurrent_switch hy).status ▸ ht)
  | run =>
      obtain ⟨stmt, xs, hc, hx⟩ := step_run h
      exact (exec_dead hx ht).imp_right fun ⟨hst, hr⟩ => ⟨⟨rfl, hst ▸ next?_of_cont hc⟩, hr⟩

end Kernel

/-! ### Runs -/

namespace ExitLog
variable {M : Type} [ThreadQueues M] {s t : ExitLog M} {act : Action}

/-- What every run keeps: the dead have exited and stand in `schedule_next`, or they run; and who is freed frees itself. -/
structure Kept (s : ExitLog M) : Prop where
  dead : ∀ t, s.kernel.status t = .dead → t ∈ s.exited ∧ t ∈ s.insideAt
  own : s.kernel.freed ≠ [] → ∃ f ∈ s.kfrees, f.1 = f.2.running

/-- What a step records when the same thread goes on. -/
theorem step_stays (ht : s.step act = some t) (hn : s.kernel.atSchedule act = none) :
    t.kernel.running = s.kernel.running ∧ t.kernel.freed = s.kernel.freed ∧ t.suspended = s.suspended ∧
      t.returns = s.returns ∧ t.kfrees = s.kfrees := by
  obtain ⟨k, hk, rfl⟩ := Option.map_eq_some_iff.mp ht
  have hturn := Kernel.step_turn hk
  rw [hn] at hturn
  cases hturn with
  | stays h => simp [h.running, h.freed, hn]

/-- What it records when it switches. -/
theorem step_passes (ht : s.step act = some t) {m : M} (hm : s.kernel.atSchedule act = some m) :
    s.kernel.upNext act = some t.kernel.running ∧ t.suspended = s.insideAt.erase t.kernel.running ∧
      t.returns = (if t.kernel.running ∈ s.insideAt then (s.exitedAt act, t.kernel) :: s.returns else s.returns) ∧
      if t.kernel.status t.kernel.running = .dead then t.kernel.freed = t.kernel.running :: s.kernel.freed ∧
        t.kfrees = (t.kernel.running, t.kernel) :: s.kfrees
      else t.kernel.freed = s.kernel.freed ∧ t.kfrees = s.kfrees := by
  obtain ⟨k, hk, rfl⟩ := Option.map_eq_some_iff.mp ht
  have hturn := Kernel.step_turn hk
  rw [hm] at hturn
  cases hturn with
  | passes h =>
      refine ⟨?_, by simp [hm], by simp [hm], ?_⟩
      · show (s.kernel.atSchedule act).bind _ = _
        rw [hm]
        exact h.next
      · have hfreed := h.freed
        split_ifs at hfreed ⊢ <;> simp [hfreed]

theorem step_exited (ht : s.step act = some t) : t.exited = s.exitedAt act := by
  obtain ⟨k, -, rfl⟩ := Option.map_eq_some_iff.mp ht
  rfl

/-- Who is dead behind a step has exited, and stood in `schedule_next` with it. -/
theorem Kept.dead_step (h : s.Kept) (ht : s.step act = some t) {u : ℕ} (hu : t.kernel.status u = .dead) :
    u ∈ s.exitedAt act ∧ u ∈ s.insideAt := by
  obtain ⟨k, hk, rfl⟩ := Option.map_eq_some_iff.mp ht
  unfold exitedAt
  rcases Kernel.step_dead hk hu with hd | ⟨he, rfl⟩
  · obtain ⟨hex, hin⟩ := h.dead u hd
    refine ⟨?_, hin⟩
    split_ifs
    · exact List.mem_cons_of_mem _ hex
    · exact hex
  · rw [if_pos he]
    exact ⟨List.mem_cons_self, List.mem_cons_self⟩

theorem Kept.step (h : s.Kept) (ht : s.step act = some t) : t.Kept := by
  cases hm : s.kernel.atSchedule act with
  | none =>
      obtain ⟨hr, hf, hs, -, hk⟩ := step_stays ht hm
      refine ⟨fun u hu => ?_, ?_⟩
      · rw [step_exited ht, insideAt, hr, hs]
        exact h.dead_step ht hu
      · rw [hf, hk]
        exact h.own
  | some m =>
      obtain ⟨-, hs, -, hf⟩ := step_passes ht hm
      refine ⟨fun u hu => ?_, fun hne => ?_⟩
      · obtain ⟨hex, hin⟩ := h.dead_step ht hu
        rw [step_exited ht, insideAt, hs]
        refine ⟨hex, List.mem_cons.mpr ?_⟩
        rcases eq_or_ne u t.kernel.running with he | hne
        · exact .inl he
        · exact .inr ((List.mem_erase_of_ne hne).mpr hin)
      · split_ifs at hf with hd
        · rw [hf.2]
          exact ⟨_, List.mem_cons_self, rfl⟩
        · rw [hf.1] at hne
          rw [hf.2]
          exact h.own hne

/-- Where the dead are reaped, nobody has been freed: a thread that frees one frees itself. -/
theorem Kept.freed_eq_nil (h : s.Kept) (hg : Reaps s) : s.kernel.freed = [] := by
  by_contra hne
  obtain ⟨f, hf, he⟩ := h.own hne
  exact (hg.unused f hf).1 he

/-- What is asked is asked of the returns and the calls of `kfree` only. -/
theorem reaps_congr (hr : t.returns = s.returns) (hk : t.kfrees = s.kfrees) : Reaps t ↔ Reaps s := by
  constructor
  · intro hg
    exact ⟨hr ▸ hg.freed, hk ▸ hg.unused⟩
  · rintro ⟨hfreed, hunused⟩
    rw [← hr] at hfreed
    rw [← hk] at hunused
    exact ⟨hfreed, hunused⟩

/-- A thread that is dead comes back, and frees itself. -/
theorem Kept.reaps_dead (h : s.Kept) (ht : s.step act = some t) {m : M} (hm : s.kernel.atSchedule act = some m)
    (hd : t.kernel.status t.kernel.running = .dead) : ¬ Reaps t ∧ s.Resumes act := by
  obtain ⟨hnext, -, -, hf⟩ := step_passes ht hm
  rw [if_pos hd] at hf
  obtain ⟨hex, hin⟩ := h.dead_step ht hd
  refine ⟨fun hg => absurd rfl (hg.unused (t.kernel.running, t.kernel) ?_).1, List.ne_nil_of_mem hex, _, hin, hnext⟩
  rw [hf.2]
  exact List.mem_cons_self

/-- A thread that is not dead comes back, and nobody is freed. -/
theorem Kept.reaps_back (h : s.Kept) (ht : s.step act = some t) {m : M} (hm : s.kernel.atSchedule act = some m)
    (hd : t.kernel.status t.kernel.running ≠ .dead) (hin : t.kernel.running ∈ s.insideAt) :
    Reaps t ↔ Reaps s ∧ s.exitedAt act = [] := by
  obtain ⟨-, -, hr, hf⟩ := step_passes ht hm
  rw [if_neg hd] at hf
  rw [if_pos hin] at hr
  constructor
  · intro hg
    have hs : Reaps s := by
      refine ⟨fun r hr' => hg.freed r ?_, hf.2 ▸ hg.unused⟩
      rw [hr]
      exact List.mem_cons_of_mem _ hr'
    refine ⟨hs, List.eq_nil_iff_forall_not_mem.mpr fun u hu => ?_⟩
    have hone := hg.freed (s.exitedAt act, t.kernel) (hr ▸ List.mem_cons_self) u hu
    simp [hf.1, h.freed_eq_nil hs] at hone
  · rintro ⟨hs, hnil⟩
    refine ⟨fun r hr' => ?_, hf.2 ▸ hs.unused⟩
    rw [hr, hnil] at hr'
    rcases List.mem_cons.mp hr' with rfl | hr'
    · exact fun u hu => absurd hu List.not_mem_nil
    · exact hs.freed r hr'

/-- **The steps that break it** are those that resume a thread when one has exited. -/
theorem Kept.reaps_step (h : s.Kept) (ht : s.step act = some t) : Reaps t ↔ Reaps s ∧ ¬ s.Resumes act := by
  cases hm : s.kernel.atSchedule act with
  | none =>
      obtain ⟨-, -, -, hr, hk⟩ := step_stays ht hm
      have hno : ¬ s.Resumes act := by
        rintro ⟨-, u, -, hu⟩
        rw [Kernel.upNext, hm] at hu
        cases hu
      exact (reaps_congr hr hk).trans (and_iff_left hno).symm
  | some m =>
      obtain ⟨hnext, -, hr, hf⟩ := step_passes ht hm
      by_cases hd : t.kernel.status t.kernel.running = .dead
      · obtain ⟨hno, hres⟩ := h.reaps_dead ht hm hd
        exact iff_of_false hno fun hg => hg.2 hres
      · rw [if_neg hd] at hf
        by_cases hin : t.kernel.running ∈ s.insideAt
        · have hres : s.Resumes act ↔ s.exitedAt act ≠ [] := and_iff_left ⟨_, hin, hnext⟩
          rw [hres, not_not]
          exact h.reaps_back ht hm hd hin
        · -- a new thread begins
          rw [if_neg hin] at hr
          have hno : ¬ s.Resumes act := by
            rintro ⟨-, u, hu, hu'⟩
            obtain rfl := Option.some.inj (hnext.symm.trans hu')
            exact hin hu
          exact (reaps_congr hr hf.2).trans (and_iff_left hno).symm

theorem kept_start (mem : M) (value : ℕ → ℕ) (level : InterruptLevel) (intr : Bool) :
    (start (initThreads mem value level intr)).Kept := by
  refine ⟨fun t ht => ?_, fun hne => absurd ?_ hne⟩
  · have hnew := Kernel.threadUnblock_dead ht
    have hzero : ThreadStatus.blocked = .dead := Kernel.dead_of_setStatus (by simp) hnew
    cases hzero
  · exact Kernel.threadUnblock_freed _ _

end ExitLog

/-- **Dead threads.**  In every run of the kernel, however its functions are used, each return from `schedule_next` finds
everybody freed who has exited, and nobody is freed who runs or is on a list, exactly as long as no thread that stands in
`schedule_next` resumes when one has exited. -/
theorem dead_threads_reaped_iff {M : Type} [ThreadQueues M] (mem : M) (value : ℕ → ℕ) (level : InterruptLevel) (intr : Bool)
    {s : ExitLog M} (h : Reach ExitLog.step (fun _ _ => True) (.start (initThreads mem value level intr)) s) :
    Reaps s ↔ Reach ExitLog.step (fun s act => ¬ s.Resumes act) (.start (initThreads mem value level intr)) s := by
  have hkept : ∀ u, Reach ExitLog.step (fun _ _ => True) (.start (initThreads mem value level intr)) u → u.Kept :=
    fun u hu => hu.invariant (ExitLog.kept_start mem value level intr) fun _ _ _ hk _ hs => hk.step hs
  have hstart : Reaps (ExitLog.start (initThreads mem value level intr)) := ⟨by simp [ExitLog.start], by simp [ExitLog.start]⟩
  rw [h.good_iff (G := Reaps) (B := ExitLog.Resumes) hstart fun u act v hu _ hv => (hkept u hu).reaps_step hv]
  exact ⟨fun hr => hr.mono fun _ _ hok => hok.2, fun hr => hr.mono fun _ _ hok => ⟨trivial, hok⟩⟩

/-- Thread `2` exits when nobody else stands in `schedule_next` but thread `0`, which is blocked; thread `3` is new. -/
theorem dead_threads_reaped_new :
    let mem : ListMem Queue ℕ := ⟨fun _ => .null, fun _ => .null, fun _ => 0⟩
    ∃ s, Reach ExitLog.step (fun s act => ¬ s.Resumes act) (.start (initThreads mem (fun _ => 0) .enabled true)) s ∧
      s.exited = [2] ∧ s.kernel.running = 3 ∧ s.returns.length = 1 ∧ Reaps s := by
  intro mem
  have hrun : (runs ExitLog.step (fun s act => ¬ s.Resumes act) (.start (initThreads mem (fun _ => 0) .enabled true))
      [.call .createThread, .run, .call .yieldCurrent, .run, .run, .call .yieldCurrent, .run, .call .createThread, .run,
        .call .exitThread, .run]).map
      (fun s => (s.exited, s.kernel.running, s.returns.length)) = some ([2], 3, 1) := by decide +kernel
  obtain ⟨s, hs, he⟩ := Option.map_eq_some_iff.mp hrun
  simp only [Prod.mk.injEq] at he
  have hreach := Reach.of_runs hs
  exact ⟨s, hreach, he.1, he.2.1, he.2.2, (dead_threads_reaped_iff mem (fun _ => 0) .enabled true
    (hreach.mono fun _ _ _ => trivial)).mpr hreach⟩

/-- **A dead thread is left**: thread `3` exits and thread `2` comes back from `yield_current`. -/
theorem dead_threads_left :
    let mem : ListMem Queue ℕ := ⟨fun _ => .null, fun _ => .null, fun _ => 0⟩
    ∃ s, Reach ExitLog.step (fun s act => s.kernel.Proper act) (.start (initThreads mem (fun _ => 0) .enabled true)) s ∧
      s.kernel.running = 2 ∧ (∃ r ∈ s.returns, r.1 = [3] ∧ r.2.freed = []) ∧ ¬ Reaps s := by
  intro mem
  have hrun : (runs ExitLog.step (fun s act => s.kernel.Plain act = true)
      (.start (initThreads mem (fun _ => 0) .enabled true))
      [.call .createThread, .run, .call .yieldCurrent, .run, .run, .call .createThread, .run, .call .yieldCurrent, .run,
        .run, .call .exitThread, .run]).map
      (fun s => (s.kernel.running, (s.returns.head?.map Prod.fst, s.returns.head?.map fun r => r.2.freed))) =
      some (2, (some [3], some [])) := by decide +kernel
  obtain ⟨s, hs, he⟩ := Option.map_eq_some_iff.mp hrun
  simp only [Prod.mk.injEq] at he
  obtain ⟨hrunning, hexited, hfreed⟩ := he
  obtain ⟨r, hr, hr₁⟩ := Option.map_eq_some_iff.mp hexited
  have hmem : r ∈ s.returns := List.mem_of_head? hr
  have hr₂ : r.2.freed = [] := by
    rw [hr] at hfreed
    exact Option.some.inj hfreed
  refine ⟨s, (Reach.of_runs hs).mono fun _ _ hok => Kernel.Plain.proper hok, hrunning, ⟨r, hmem, hr₁, hr₂⟩, fun hg => ?_⟩
  have hone := hg.freed r hmem 3 (hr₁ ▸ List.mem_singleton_self 3)
  simp [hr₂] at hone

/-! ### Nobody is freed -/

/-- No thread is dead that runs or is on a list, nor the idle thread, and nobody has been freed. -/
structure Alive (a : Kernel Seqs) : Prop where
  running : a.status a.running ≠ .dead
  listed : ∀ l, ∀ t ∈ a.mem l, a.status t ≠ .dead
  idle : a.status a.idle ≠ .dead
  freed : a.freed = []

namespace Kernel
variable {a b a' : Kernel Seqs} {own : Prop}

/-- The idle thread, a thread on a list, or the running one when that is not left out. -/
def Origin (a : Kernel Seqs) (own : Prop) (t : ℕ) : Prop := t = a.idle ∨ (∃ l, t ∈ a.mem l) ∨ own ∧ t = a.running

/-- Where those come from who run or are on a list behind a statement. -/
structure Comes (a : Kernel Seqs) (own : Prop) (a' : Kernel Seqs) : Prop where
  running : Origin a own a'.running
  listed : ∀ l, ∀ t ∈ a'.mem l, Origin a own t ∨ a'.status t ≠ .dead

theorem Comes.mono (h : Comes b False a') (hi : b.idle = a.idle) (hm : ∀ l, ∀ t ∈ b.mem l, Origin a own t) :
    Comes a own a' := by
  have horigin : ∀ t, Origin b False t → Origin a own t := by
    rintro t (ht | ⟨l, hl⟩ | ⟨hf, -⟩)
    · exact .inl (ht.trans hi)
    · exact hm l t hl
    · exact hf.elim
  exact ⟨horigin _ h.running, fun l t ht => (h.listed l t ht).imp_left (horigin t)⟩

/-- The running thread goes on, and the lists hold only threads that were there, or that are not dead. -/
theorem Comes.of_running (ho : own) (hr : a'.running = a.running)
    (hm : ∀ l, ∀ t ∈ a'.mem l, Origin a own t ∨ a'.status t ≠ .dead) : Comes a own a' :=
  ⟨.inr (.inr ⟨ho, hr⟩), hm⟩

/-- The same when the lists hold nobody else. -/
theorem Comes.of_subset (ho : own) (hr : a'.running = a.running) (hm : ∀ l, ∀ t ∈ a'.mem l, ∃ l', t ∈ a.mem l') :
    Comes a own a' :=
  .of_running ho hr fun l t ht => .inl (.inr (.inl (hm l t ht)))

theorem scheduleNext_comes (h : a.scheduleNext = some a') : Comes a False a' := by
  rcases scheduleNext_cases h with ⟨-, hr, hm⟩ | ⟨t, ts, hx, hr, hm⟩
  · refine ⟨.inl hr, fun l t ht => .inl (.inr (.inl ⟨l, ?_⟩))⟩
    rwa [hm] at ht
  · refine ⟨.inr (.inl ⟨.ready, ?_⟩), fun l u hu => .inl (.inr (.inl ⟨l, ?_⟩))⟩
    · rw [hr, hx]
      exact List.mem_cons_self
    · rw [hm] at hu
      exact (Queues.update_sublist (hx ▸ List.sublist_cons_self t ts) l).subset hu

theorem origin_push (a : Kernel Seqs) (ho : own) {l l' : Queue} {t : ℕ}
    (ht : t ∈ pushBack a.mem l (.node a.running) l') : Origin a own t := by
  rcases mem_push.mp ht with ht | ⟨ht, -⟩
  · exact .inr (.inl ⟨l', ht⟩)
  · exact .inr (.inr ⟨ho, ht⟩)

theorem yieldCurrent_comes (h : a.yieldCurrent = some a') : Comes a True a' := by
  unfold yieldCurrent at h
  split_ifs at h
  · exact (scheduleNext_comes h).mono rfl fun l t ht => origin_push a trivial ht
  · exact (scheduleNext_comes h).mono rfl fun l t ht => .inr (.inl ⟨l, ht⟩)

theorem blockCurrent_comes (h : a.blockCurrent = some a') : Comes a True a' := by
  rw [blockCurrent_eq] at h
  exact (scheduleNext_comes h).mono rfl fun l t ht => .inr (.inl ⟨l, ht⟩)

theorem threadUnblock_comes (a : Kernel Seqs) (thr : ℕ) : Comes a True (a.threadUnblock thr) := by
  rw [threadUnblock_eq]
  refine .of_running trivial rfl fun l t ht => ?_
  have hst : (Function.update a.status thr .ready) thr = .ready := Function.update_self ..
  rcases eq_or_ne t thr with rfl | hne
  · refine .inr fun hd => ?_
    exact absurd (hst.symm.trans hd) (by simp)
  · refine .inl (.inr (.inl ⟨l, ?_⟩))
    have ht' : t ∈ (if thr ≠ a.idle then pushBack a.mem .ready (.node thr) else a.mem) l := ht
    split_ifs at ht'
    · exact (mem_push.mp ht').resolve_right fun hp => hne hp.1
    · exact ht'

theorem decLoop_comes {s : Sema} {value : ℕ} {old : InterruptLevel} (h : a.decLoop s value old = some a') :
    Comes a True a' := by
  unfold decLoop at h
  split_ifs at h
  · rw [blockCurrent_eq] at h
    exact (scheduleNext_comes h).mono rfl fun l t ht => origin_push a trivial ht
  · cases h
    exact .of_subset trivial rfl fun l t ht => ⟨l, ht⟩

theorem wakeWaiter_comes {s : Sema} (h : a.wakeWaiter s = some a') : Comes a True a' := by
  unfold wakeWaiter at h
  split_ifs at h with he
  · cases h
    exact .of_subset trivial rfl fun l t ht => ⟨l, ht⟩
  · obtain ⟨w, ws, hx⟩ := List.exists_cons_of_ne_nil fun hx => he (List.isEmpty_iff.mpr hx)
    rw [popFront_cons hx] at h
    cases h
    have hc := threadUnblock_comes { a with mem := Function.update a.mem (.sema s) ws } w
    have hsub := Queues.update_sublist (q := a.mem) (hx ▸ List.sublist_cons_self w ws)
    refine .of_running trivial (threadUnblock_frame _ w).2 fun l t ht => (hc.listed l t ht).imp_left ?_
    rintro (ht | ⟨l', hl'⟩ | hr)
    · exact .inl ht
    · exact .inr (.inl ⟨l', (hsub l').subset hl'⟩)
    · exact .inr (.inr hr)

/-- Only lists, the idle thread and the running one make a difference. -/
theorem Comes.congr (h : Comes b True a') (ho : own) (hi : b.idle = a.idle) (hr : b.running = a.running)
    (hm : b.mem = a.mem) : Comes a own a' := by
  have horigin : ∀ t, Origin b True t → Origin a own t := by
    rintro t (ht | ⟨l, hl⟩ | ⟨-, ht⟩)
    · exact .inl (ht.trans hi)
    · exact .inr (.inl ⟨l, hm ▸ hl⟩)
    · exact .inr (.inr ⟨ho, ht.trans hr⟩)
  exact ⟨horigin _ h.running, fun l t ht => (h.listed l t ht).imp_left (horigin t)⟩

/-- **One statement.** -/
theorem exec_comes {stmt : Stmt} {xs : List Stmt} (hok : a.Allowed stmt) (h : (a.pop xs).exec stmt = some a') :
    Comes a (stmt ≠ .exitThread) a' := by
  cases stmt with
  | yieldCurrent => exact (yieldCurrent_comes (a := a.pop xs) h).congr (by simp) rfl rfl rfl
  | blockCurrent => exact (blockCurrent_comes (a := a.pop xs) h).congr (by simp) rfl rfl rfl
  | waitBlock c => exact (blockCurrent_comes (a := a.pop xs) h).congr (by simp) rfl rfl rfl
  | exitThread =>
      have hc := scheduleNext_comes (a := (a.pop xs).disableInterrupts.setStatus (a.pop xs).running .dead) h
      exact hc.mono rfl fun l t ht => .inr (.inl ⟨l, ht⟩)
  | threadBlock thr =>
      have h' : (if thr = a.running then (a.pop xs).blockCurrent
          else some { (a.pop xs).setStatus thr .blocked with mem := remove a.mem .ready (.node thr) }) = some a' := h
      split_ifs at h'
      · exact (blockCurrent_comes (a := a.pop xs) h').congr (by simp) rfl rfl rfl
      · cases h'
        refine .of_subset (by simp) rfl fun l t ht => ⟨l, ?_⟩
        exact (Queues.update_sublist List.erase_sublist l).subset ht
  | threadUnblock thr =>
      cases h
      exact (threadUnblock_comes (a.pop xs) thr).congr (by simp) rfl rfl rfl
  | createThread =>
      cases h
      exact (threadUnblock_comes (a.pop xs).newThread a.nextTid).congr (by simp) rfl rfl rfl
  | semaphoreInc s =>
      obtain ⟨a₁, h₁, rfl⟩ := Option.map_eq_some_iff.mp h
      have hne : Stmt.semaphoreInc s ≠ .exitThread := by simp
      have hc : Comes a (Stmt.semaphoreInc s ≠ .exitThread) a₁ := (wakeWaiter_comes h₁).congr hne rfl rfl rfl
      exact ⟨hc.running, hc.listed⟩
  | semaphoreDec s => exact (decLoop_comes (a := (a.pop xs).disableInterrupts) h).congr (by simp) rfl rfl rfl
  | decLoop s value old => exact (decLoop_comes (a := a.pop xs) h).congr (by simp) rfl rfl rfl
  | waitPush c =>
      cases h
      exact .of_running (by simp) rfl fun l t ht => .inl (origin_push a (by simp) ht)
  | signalMove c =>
      obtain ⟨w, ws, hx⟩ := List.exists_cons_of_ne_nil (show a.mem (.cond c) ≠ [] from hok)
      have h' : some { a.pop xs with mem := pushBack (popFront a.mem (.cond c)).1 .ready (popFront a.mem (.cond c)).2 } =
          some a' := h
      rw [popFront_cons hx] at h'
      cases h'
      refine .of_subset (by simp) rfl fun l t ht => ?_
      rcases mem_push.mp ht with ht | ⟨rfl, -⟩
      · exact ⟨l, (Queues.update_sublist (hx ▸ List.sublist_cons_self w ws) l).subset ht⟩
      · exact ⟨.cond c, hx ▸ List.mem_cons_self⟩
  | signalAll c l =>
      have h' : (if isEmpty a.mem (.cond c) then a.pop xs
          else (a.pop xs).enter (condvarSignalOne c l ++ condvarSignalAll c l)) = a' := Option.some.inj h
      split_ifs at h' <;> subst h' <;> exact .of_subset (by simp) rfl fun l t ht => ⟨l, ht⟩
  | _ =>
      cases h
      exact .of_subset (by simp) rfl fun l t ht => ⟨l, ht⟩

/-- **One step** of proper use: who exits is on no list behind it, and does not run. -/
theorem step_comes {act : Action} (hs : a.Sane) (hok : a.Proper act) (h : a.step act = some a') :
    Comes a (¬ a.Exiting act) a' := by
  cases act with
  | call op =>
      obtain ⟨-, -, rfl⟩ := step_call h
      exact .of_subset (by simp [Exiting]) rfl fun l t ht => ⟨l, ht⟩
  | interrupt =>
      obtain ⟨-, hy⟩ := step_interrupt h
      exact (yieldCurrent_comes hy).congr (by simp [Exiting]) rfl rfl rfl
  | run =>
      obtain ⟨stmt, xs, hc, -, he⟩ := run_effect hs h
      have hn : a.next? = some stmt := next?_of_cont hc
      have hcomes := exec_comes (hok stmt hn) he
      have hiff : (stmt ≠ .exitThread) = ¬ a.Exiting .run := by simp [Exiting, hn]
      rwa [hiff] at hcomes

end Kernel

namespace Alive
open Kernel
variable {a a' : Kernel Seqs} {act : Action}

theorem step (h : Alive a) (hi : Inv a) (hok : a.Proper act) (hs : a.step act = some a') : Alive a' := by
  have hcomes := step_comes hi.sane hok hs
  -- a thread that exits is on no list
  have halive : ∀ t, Origin a (¬ a.Exiting act) t → a'.status t ≠ .dead := by
    intro t ht hd
    rcases step_dead hs hd with hd | ⟨he, rfl⟩
    · rcases ht with rfl | ⟨l, hl⟩ | ⟨-, rfl⟩
      · exact h.idle hd
      · exact h.listed l t hl hd
      · exact h.running hd
    · rcases ht with hidle | ⟨l, hl⟩ | ⟨hne, -⟩
      · have hmem : Stmt.exitThread ∈ a.cont a.idle := hidle ▸ List.mem_of_head? he.2
        rcases hi.sane.idle_cont _ hmem with hst | ⟨old, hst⟩ <;> cases hst
      · obtain ⟨c, lk, -, hc⟩ := hi.waiting l hl
        have hn := he.2
        unfold next? at hn
        rw [hc] at hn
        cases hn
      · exact hne he
  refine ⟨halive _ hcomes.running, fun l t ht => ?_, ?_, ?_⟩
  · rcases hcomes.listed l t ht with ho | hne
    · exact halive t ho
    · exact hne
  · rw [(hi.sane.step_keeps hs).1]
    exact halive _ (.inl rfl)
  · have hturn := step_turn hs
    generalize a.atSchedule act = o at hturn
    cases hturn with
    | passes hp =>
        rw [hp.freed, if_neg (halive _ hcomes.running)]
        exact h.freed
    | stays hst => exact hst.freed.trans h.freed

theorem start (value : ℕ → ℕ) (level : InterruptLevel) (intr : Bool) :
    Alive (initThreads (fun _ => [] : Seqs) value level intr) := by
  have hkept := (ExitLog.kept_start (fun _ => [] : Seqs) value level intr).dead
  have hdead : ∀ t, (initThreads (fun _ => [] : Seqs) value level intr).status t ≠ .dead := fun t ht =>
    absurd (hkept t ht).1 List.not_mem_nil
  exact ⟨hdead _, fun _ t _ => hdead t, hdead _, threadUnblock_freed _ _⟩

end Alive

/-- **Nobody is freed** in proper use: no thread that is dead runs again, and only the running thread is freed. -/
theorem freed_eq_nil {mem : ListMem Queue ℕ} (h₀ : ∀ l, Initialised mem l ∨ ZeroFilled mem l) {value : ℕ → ℕ}
    {level : InterruptLevel} {intr : Bool} {k : Kernel (ListMem Queue ℕ)}
    (h : Reach Kernel.step Kernel.Proper (initThreads mem value level intr) k) : k.freed = [] := by
  have hinv : ∃ a, Refines k a ∧ Inv a ∧ Alive a := by
    refine h.invariant (I := fun k => ∃ a, Refines k a ∧ Inv a ∧ Alive a) ?_ fun k act k' ⟨a, hr, hi, ha⟩ hok hs => ?_
    · exact ⟨_, initThreads_refines value level intr (.of_fresh h₀), initThreads_inv value level intr,
        Alive.start value level intr⟩
    · obtain ⟨a', hs', hr', hi'⟩ := hr.follow hi hok hs
      exact ⟨a', hr', hi', ha.step hi (hr.proper hok) hs'⟩
  obtain ⟨a, hr, -, ha⟩ := hinv
  rw [hr.threads]
  exact ha.freed

end Dunkos
