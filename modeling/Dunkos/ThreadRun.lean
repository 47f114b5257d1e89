import Dunkos.Thread

/-! # What threads have to run

`Formed` lists what a thread can have still to run.  `Effect` says what one statement does to the
values of semaphores, to the holders of locks and to what threads have to run, whatever is on the
lists (`exec_effect`); switches do nothing to these (`Frame`).  `Sane.step` is the invariant that
holds in every run, with no condition on what threads call. -/

namespace Dunkos

open ThreadQueues

/-! ### What is still to run -/

/-- The semaphore a statement uses. -/
def Stmt.sema? : Stmt → Option Sema
  | semaphoreInc s => some s
  | semaphoreDec s => some s
  | decLoop s _ _ => some s
  | _ => none

/-- Statements that are the last of their function. -/
def Stmt.Single : Stmt → Prop
  | startThread => True
  | createThread => True
  | yieldCurrent => True
  | blockCurrent => True
  | threadBlock _ => True
  | threadUnblock _ => True
  | exitThread => True
  | semaphoreInc (.sem _) => True
  | semaphoreDec (.sem _) => True
  | decLoop (.sem _) value _ => value = 0
  | signalAll _ _ => True
  | _ => False

/-- Statements that threads have to run only where they call the function itself. -/
def Stmt.Called : Stmt → Prop
  | exitThread => True
  | semaphoreInc (.sem _) => True
  | _ => False

/-- Behind `lock_acquire`: the end, or the loop of `condvar_signal_all`. -/
inductive AfterAcquire (l : ℕ) : List Stmt → Prop
  | done : AfterAcquire l []
  | loop (c : ℕ) : AfterAcquire l (condvarSignalAll c l)

/-- Behind `lock_release`: the end, or the rest of `condvar_wait` or `condvar_signal_one`. -/
inductive AfterRelease (l : ℕ) : List Stmt → Prop
  | done : AfterRelease l []
  | wait (c : ℕ) : AfterRelease l (.waitPush c :: .waitBlock c :: lockAcquire l)
  | signal (c : ℕ) {xs : List Stmt} (h : AfterAcquire l xs) : AfterRelease l (.signalMove c :: lockAcquire l ++ xs)

/-- What a thread can have still to run. -/
inductive Formed : List Stmt → Prop
  | nil : Formed []
  | single {stmt : Stmt} (h : stmt.Single) : Formed [stmt]
  | isr (old : InterruptLevel) {xs : List Stmt} (h : Formed xs) : Formed (.isrReturn old :: xs)
  | acquire {l : ℕ} {xs : List Stmt} (h : AfterAcquire l xs) : Formed (.semaphoreDec (.binary l) :: .setHolder l :: xs)
  | acquireLoop (old : InterruptLevel) {l : ℕ} {xs : List Stmt} (h : AfterAcquire l xs) :
      Formed (.decLoop (.binary l) 0 old :: .setHolder l :: xs)
  | acquired {l : ℕ} {xs : List Stmt} (h : AfterAcquire l xs) : Formed (.setHolder l :: xs)
  | release {l : ℕ} {xs : List Stmt} (h : AfterRelease l xs) : Formed (.clearHolder l :: .semaphoreInc (.binary l) :: xs)
  | released {l : ℕ} {xs : List Stmt} (h : AfterRelease l xs) : Formed (.semaphoreInc (.binary l) :: xs)
  | push (c l : ℕ) : Formed (.waitPush c :: .waitBlock c :: lockAcquire l)
  | block (c l : ℕ) : Formed (.waitBlock c :: lockAcquire l)
  | move (c : ℕ) {l : ℕ} {xs : List Stmt} (h : AfterAcquire l xs) : Formed (.signalMove c :: lockAcquire l ++ xs)

theorem AfterAcquire.formed {l : ℕ} {xs : List Stmt} (h : AfterAcquire l xs) : Formed xs := by
  cases h with
  | done => exact .nil
  | loop c => exact .single trivial

theorem AfterRelease.formed {l : ℕ} {xs : List Stmt} (h : AfterRelease l xs) : Formed xs := by
  cases h with
  | done => exact .nil
  | wait c => exact .push c l
  | signal c h => exact .move c h

theorem ThreadOp.formed (op : ThreadOp) : Formed op.body := by
  cases op with
  | lockAcquire l => exact .acquire .done
  | lockRelease l => exact .release .done
  | condvarWait c l => exact .release (.wait c)
  | condvarSignalOne c l => exact .release (.signal c .done)
  | _ => exact .single trivial

theorem condvarSignalAll_formed (c l : ℕ) : Formed (condvarSignalOne c l ++ condvarSignalAll c l) :=
  .release (.signal c (.loop c))

/-! ### What the scheduler leaves alone -/

namespace Kernel
variable {M : Type} [ThreadQueues M] {k k' : Kernel M}

/-- Only the running thread, statuses, lists and interrupts may change. -/
structure Frame (k k' : Kernel M) : Prop where
  idle : k'.idle = k.idle
  nextTid : k'.nextTid = k.nextTid
  value : k'.value = k.value
  holder : k'.holder = k.holder
  cont : k'.cont = k.cont

/-- A switch, to a thread. -/
structure Switch (k k' : Kernel M) : Prop extends Frame k k' where
  status : k'.status = k.status
  exists_running : k'.running < k.nextTid

theorem scheduleNext_switch (h : k.scheduleNext = some k') : Switch k k' := by
  have hnext : k.nextThread.1.toThreads = k.toThreads := by
    unfold nextThread
    split_ifs <;> rfl
  unfold scheduleNext at h
  generalize k.nextThread = r at h hnext
  obtain ⟨⟨th, m⟩, next⟩ := r
  dsimp only at hnext
  subst hnext
  cases next with
  | none => cases h
  | some next =>
      dsimp only at h
      split_ifs at h with hlt <;> cases h <;> exact ⟨⟨rfl, rfl, rfl, rfl, rfl⟩, rfl, hlt⟩

theorem yieldCurrent_switch (h : k.yieldCurrent = some k') : Switch k k' := by
  unfold yieldCurrent at h
  split_ifs at h
  · have := scheduleNext_switch h
    exact ⟨⟨this.idle, this.nextTid, this.value, this.holder, this.cont⟩, this.status, this.exists_running⟩
  · exact scheduleNext_switch h

theorem blockCurrent_frame (h : k.blockCurrent = some k') : Frame k k' ∧ k'.running < k.nextTid := by
  have := yieldCurrent_switch h
  exact ⟨⟨this.idle, this.nextTid, this.value, this.holder, this.cont⟩, this.exists_running⟩

theorem exitThread_frame (h : k.exitThread = some k') : Frame k k' ∧ k'.running < k.nextTid := by
  have := scheduleNext_switch h
  exact ⟨⟨this.idle, this.nextTid, this.value, this.holder, this.cont⟩, this.exists_running⟩

theorem threadBlock_frame {thr : ℕ} (hr : k.running < k.nextTid) (h : k.threadBlock thr = some k') :
    Frame k k' ∧ k'.running < k.nextTid := by
  unfold threadBlock at h
  split_ifs at h
  · exact blockCurrent_frame h
  · cases h
    exact ⟨⟨rfl, rfl, rfl, rfl, rfl⟩, hr⟩

/-- `thread_unblock` puts the thread on the ready list, unless it is the idle thread, and makes it
ready; what it does to interrupts does not last. -/
theorem threadUnblock_eq (k : Kernel M) (thr : ℕ) : k.threadUnblock thr =
    ((({ k with mem := if thr ≠ k.idle then pushBack k.mem .ready (.node thr) else k.mem }).disableInterrupts.setStatus
      thr .ready).setInterruptLevel k.level) := by
  unfold threadUnblock disableInterrupts setInterruptLevel
  dsimp only
  split_ifs <;> rfl

theorem threadUnblock_mem (k : Kernel M) {thr : ℕ} (h : thr ≠ k.idle) :
    (k.threadUnblock thr).mem = pushBack k.mem .ready (.node thr) := by
  rw [threadUnblock_eq]
  exact if_pos h

theorem threadUnblock_frame (k : Kernel M) (thr : ℕ) : Frame k (k.threadUnblock thr) ∧
    (k.threadUnblock thr).running = k.running := by
  rw [threadUnblock_eq]
  exact ⟨⟨rfl, rfl, rfl, rfl, rfl⟩, rfl⟩

theorem wakeWaiter_frame {s : Sema} (h : k.wakeWaiter s = some k') : Frame k k' ∧ k'.running = k.running := by
  unfold wakeWaiter at h
  split_ifs at h
  · cases h
    exact ⟨⟨rfl, rfl, rfl, rfl, rfl⟩, rfl⟩
  · generalize popFront k.mem (.sema s) = r at h
    obtain ⟨m, el⟩ := r
    dsimp only at h
    cases hw : el.node? with
    | none =>
        rw [hw] at h
        cases h
    | some w =>
        rw [hw] at h
        cases h
        obtain ⟨hf, hr⟩ := threadUnblock_frame { k with mem := m } w
        exact ⟨⟨hf.idle, hf.nextTid, hf.value, hf.holder, hf.cont⟩, hr⟩

theorem semaphoreInc_frame {s : Sema} (h : k.semaphoreInc s = some k') :
    Frame { k with value := Function.update k.value s ((k.value s + 1) % 2 ^ 64) } k' ∧ k'.running = k.running := by
  obtain ⟨k₁, hk₁, rfl⟩ := Option.map_eq_some_iff.mp h
  obtain ⟨hf, hr⟩ := wakeWaiter_frame hk₁
  exact ⟨⟨hf.idle, hf.nextTid, hf.value, hf.holder, hf.cont⟩, hr⟩

theorem decLoop_frame {s : Sema} {value : ℕ} {old : InterruptLevel} (hr : k.running < k.nextTid)
    (h : k.decLoop s value old = some k') :
    Frame (if value = 0 then k.enter [.decLoop s value old]
      else { k with value := Function.update k.value s (value - 1) }) k' ∧ k'.running < k.nextTid := by
  unfold decLoop at h
  split_ifs at h with hv
  · rw [if_pos hv]
    obtain ⟨hf, hlt⟩ := blockCurrent_frame h
    exact ⟨⟨hf.idle, hf.nextTid, hf.value, hf.holder, hf.cont⟩, hlt⟩
  · rw [if_neg hv]
    cases h
    exact ⟨⟨rfl, rfl, rfl, rfl, rfl⟩, hr⟩

/-! ### What a statement does -/

/-- The values of semaphores after a statement. -/
def valueAfter (k : Kernel M) : Stmt → Sema → ℕ
  | .semaphoreInc s => Function.update k.value s ((k.value s + 1) % 2 ^ 64)
  | .semaphoreDec s => if k.value s = 0 then k.value else Function.update k.value s (k.value s - 1)
  | .decLoop s value _ => if value = 0 then k.value else Function.update k.value s (value - 1)
  | _ => k.value

/-- The holders of locks after a statement. -/
def holderAfter (k : Kernel M) : Stmt → ℕ → Option ℕ
  | .setHolder l => Function.update k.holder l (some k.running)
  | .clearHolder l => Function.update k.holder l none
  | _ => k.holder

/-- What the thread still has to run after a statement, when `xs` stands behind it. -/
def contAfter (k : Kernel M) (xs : List Stmt) : Stmt → List Stmt
  | .semaphoreDec s => if k.value s = 0 then .decLoop s 0 k.level :: xs else xs
  | .decLoop s value old => if value = 0 then .decLoop s value old :: xs else xs
  | .signalAll c l => if isEmpty k.mem (.cond c) then xs else condvarSignalOne c l ++ condvarSignalAll c l ++ xs
  | _ => xs

omit [ThreadQueues M] in
theorem valueAfter_of_ne (k : Kernel M) {stmt : Stmt} {x : Sema} (h : stmt.sema? ≠ some x) :
    k.valueAfter stmt x = k.value x := by
  cases stmt with
  | semaphoreInc s => exact Function.update_of_ne (fun hs => h (congrArg some hs.symm)) _ _
  | semaphoreDec s =>
      show (if _ then _ else _ : Sema → ℕ) x = _
      split_ifs
      · rfl
      · exact Function.update_of_ne (fun hs => h (congrArg some hs.symm)) _ _
  | decLoop s value old =>
      show (if _ then _ else _ : Sema → ℕ) x = _
      split_ifs
      · rfl
      · exact Function.update_of_ne (fun hs => h (congrArg some hs.symm)) _ _
  | _ => rfl

/-- What a statement does to semaphores, locks and what threads have to run. -/
structure Effect (k : Kernel M) (stmt : Stmt) (xs : List Stmt) (k' : Kernel M) : Prop where
  value : k'.value = k.valueAfter stmt
  holder : k'.holder = k.holderAfter stmt
  self : k'.cont k.running = k.contAfter xs stmt
  others : ∀ t, t ≠ k.running → k'.cont t = k.cont t ∨ (t = k.nextTid ∧ k'.cont t = [.startThread])
  idle : k'.idle = k.idle
  nextTid : k.nextTid ≤ k'.nextTid
  exists_running : k'.running < k'.nextTid

/-- The kernel while the running thread runs a statement in front of `xs`. -/
def pop (k : Kernel M) (xs : List Stmt) : Kernel M := { k with cont := Function.update k.cont k.running xs }

omit [ThreadQueues M] in
theorem pop_others (k : Kernel M) (xs : List Stmt) {t : ℕ} (ht : t ≠ k.running) : (k.pop xs).cont t = k.cont t :=
  Function.update_of_ne ht _ _

omit [ThreadQueues M] in
theorem pop_self (k : Kernel M) (xs : List Stmt) : (k.pop xs).cont k.running = xs := Function.update_self ..

/-- Most statements change nothing that `Effect` is about. -/
theorem Effect.of_frame {stmt : Stmt} {xs : List Stmt} (h : Frame (k.pop xs) k') (hr : k'.running < k.nextTid)
    (hv : k.valueAfter stmt = k.value) (hh : k.holderAfter stmt = k.holder) (hc : k.contAfter xs stmt = xs) :
    Effect k stmt xs k' where
  value := h.value.trans hv.symm
  holder := h.holder.trans hh.symm
  self := by rw [hc, h.cont, pop_self]
  others t ht := .inl (by rw [h.cont, pop_others _ _ ht])
  idle := h.idle
  nextTid := h.nextTid.ge
  exists_running := h.nextTid ▸ hr

theorem Effect.of_decLoop {stmt : Stmt} {xs : List Stmt} {s : Sema} {value : ℕ} {old : InterruptLevel}
    (k₁ : Kernel M) (hk : Frame (k.pop xs) k₁) (hrun : k₁.running = k.running) (hr : k.running < k.nextTid)
    (h : k₁.decLoop s value old = some k')
    (hv : k.valueAfter stmt = if value = 0 then k.value else Function.update k.value s (value - 1))
    (hh : k.holderAfter stmt = k.holder)
    (hc : k.contAfter xs stmt = if value = 0 then .decLoop s value old :: xs else xs) : Effect k stmt xs k' := by
  obtain ⟨hf, hlt⟩ := decLoop_frame (by rw [hrun, hk.nextTid]; exact hr) h
  have hcont : ∀ t, t ≠ k.running → k₁.cont t = k.cont t := by
    intro t ht
    rw [hk.cont, pop_others _ _ ht]
  have hself : k₁.cont k.running = xs := by rw [hk.cont, pop_self]
  by_cases h₀ : value = 0
  · rw [if_pos h₀] at hf hv hc
    refine ⟨?_, hf.holder.trans (hk.holder.trans hh.symm), ?_, fun t ht => .inl ?_, hf.idle.trans hk.idle,
      (hf.nextTid.trans hk.nextTid).ge, ?_⟩
    · rw [hv]
      exact hf.value.trans hk.value
    · rw [hc, hf.cont, ← hself, ← hrun]
      exact Function.update_self ..
    · rw [hf.cont, ← hcont t ht]
      exact Function.update_of_ne (hrun ▸ ht) _ _
    · rw [hf.nextTid]
      exact hlt
  · rw [if_neg h₀] at hf hv hc
    refine ⟨?_, hf.holder.trans (hk.holder.trans hh.symm), ?_, fun t ht => .inl ?_, hf.idle.trans hk.idle,
      (hf.nextTid.trans hk.nextTid).ge, ?_⟩
    · rw [hv]
      exact hf.value.trans (congrArg (Function.update · s (value - 1)) hk.value)
    · rw [hc, hf.cont]
      exact hself
    · rw [hf.cont]
      exact hcont t ht
    · rw [hf.nextTid]
      exact hlt

/-- **One statement**: what it does, when a thread that exists runs it. -/
theorem exec_effect {stmt : Stmt} {xs : List Stmt} (hr : k.running < k.nextTid)
    (h : (k.pop xs).exec stmt = some k') : Effect k stmt xs k' := by
  cases stmt with
  | yieldCurrent =>
      have hs := yieldCurrent_switch h
      exact .of_frame hs.toFrame hs.exists_running rfl rfl rfl
  | blockCurrent =>
      obtain ⟨hf, hlt⟩ := blockCurrent_frame h
      exact .of_frame hf hlt rfl rfl rfl
  | waitBlock c =>
      obtain ⟨hf, hlt⟩ := blockCurrent_frame h
      exact .of_frame hf hlt rfl rfl rfl
  | exitThread =>
      obtain ⟨hf, hlt⟩ := exitThread_frame h
      exact .of_frame hf hlt rfl rfl rfl
  | threadBlock thr =>
      obtain ⟨hf, hlt⟩ := threadBlock_frame (k := k.pop xs) hr h
      exact .of_frame hf hlt rfl rfl rfl
  | threadUnblock thr =>
      cases h
      obtain ⟨hf, hrun⟩ := threadUnblock_frame (k.pop xs) thr
      exact .of_frame hf (hrun ▸ hr) rfl rfl rfl
  | createThread =>
      cases h
      obtain ⟨hf, hrun⟩ := threadUnblock_frame (k.pop xs).newThread (k.pop xs).nextTid
      refine ⟨hf.value, hf.holder, ?_, fun t ht => ?_, hf.idle, ?_, ?_⟩
      · show (Kernel.createThread _).cont _ = xs
        rw [createThread, hf.cont]
        exact (Function.update_of_ne (Nat.ne_of_lt hr) _ _).trans (pop_self k xs)
      · rw [createThread, hf.cont]
        by_cases hn : t = k.nextTid
        · exact .inr ⟨hn, hn ▸ Function.update_self ..⟩
        · exact .inl ((Function.update_of_ne hn _ _).trans (pop_others k xs ht))
      · rw [createThread, hf.nextTid]
        exact Nat.le_succ _
      · rw [createThread, hf.nextTid, hrun]
        exact Nat.lt_succ_of_lt hr
  | semaphoreInc s =>
      obtain ⟨hf, hrun⟩ := semaphoreInc_frame h
      refine ⟨hf.value, hf.holder, ?_, fun t ht => .inl ?_, hf.idle, hf.nextTid.ge, ?_⟩
      · rw [hf.cont]
        exact pop_self k xs
      · rw [hf.cont]
        exact pop_others k xs ht
      · rw [hf.nextTid, hrun]
        exact hr
  | semaphoreDec s =>
      have hc : k.contAfter xs (.semaphoreDec s) =
          if k.value s = 0 then .decLoop s (k.value s) k.level :: xs else xs := by
        show (if k.value s = 0 then .decLoop s 0 k.level :: xs else xs) = _
        split_ifs with h₀
        · rw [h₀]
        · rfl
      exact .of_decLoop (k.pop xs).disableInterrupts ⟨rfl, rfl, rfl, rfl, rfl⟩ rfl hr h rfl rfl hc
  | decLoop s value old => exact .of_decLoop (k.pop xs) ⟨rfl, rfl, rfl, rfl, rfl⟩ rfl hr h rfl rfl rfl
  | signalAll c l =>
      have h' : (if isEmpty k.mem (.cond c) then k.pop xs
          else (k.pop xs).enter (condvarSignalOne c l ++ condvarSignalAll c l)) = k' := Option.some.inj h
      by_cases he : isEmpty k.mem (.cond c) = true
      · rw [if_pos he] at h'
        subst h'
        exact .of_frame ⟨rfl, rfl, rfl, rfl, rfl⟩ hr rfl rfl (if_pos he)
      · rw [if_neg he] at h'
        subst h'
        refine ⟨rfl, rfl, ?_, fun t ht => .inl ?_, rfl, Nat.le_refl _, hr⟩
        · refine (Function.update_self ..).trans ?_
          rw [show (k.pop xs).cont (k.pop xs).running = xs from pop_self k xs]
          exact (if_neg he).symm
        · exact (Function.update_of_ne ht _ _).trans (pop_others k xs ht)
  | _ =>
      cases h
      exact ⟨rfl, rfl, pop_self k xs, fun t ht => .inl (pop_others k xs ht), rfl, Nat.le_refl _, hr⟩

/-! ### Threads that exist and what they run -/

/-- The running thread and the idle thread exist, every thread has something to run that it can have,
and the idle thread calls nothing. -/
structure Sane (k : Kernel M) : Prop where
  exists_running : k.running < k.nextTid
  exists_idle : k.idle < k.nextTid
  formed : ∀ t, Formed (k.cont t)
  idle_cont : ∀ stmt ∈ k.cont k.idle, stmt = .startThread ∨ ∃ old, stmt = .isrReturn old

theorem contAfter_formed (k : Kernel M) {stmt : Stmt} {xs : List Stmt} (h : Formed (stmt :: xs)) :
    Formed (k.contAfter xs stmt) := by
  cases h with
  | acquire h =>
      show Formed (if _ then _ else _)
      split_ifs
      · exact .acquireLoop _ h
      · exact .acquired h
  | acquireLoop old h => exact .acquireLoop old h
  | single h =>
      cases stmt with
      | semaphoreDec s =>
          show Formed (if _ then _ else _)
          cases s with
          | binary l => exact h.elim
          | sem i =>
              split_ifs
              · exact .single rfl
              · exact .nil
      | decLoop s value old =>
          show Formed (if _ then _ else _)
          cases s with
          | binary l => exact h.elim
          | sem i =>
              split_ifs
              · exact .single h
              · exact .nil
      | signalAll c l =>
          show Formed (if _ then _ else _)
          split_ifs
          · exact .nil
          · rw [List.append_nil]
            exact condvarSignalAll_formed c l
      | _ => exact .nil
  | isr old h => exact h
  | acquired h => exact h.formed
  | release h => exact .released h
  | released h => exact h.formed
  | push c l => exact .block c l
  | block c l => exact .acquire .done
  | move c h => exact .acquire h

/-- `contAfter` of the idle thread's statements is what stands behind them. -/
theorem Effect.sane {stmt : Stmt} {xs : List Stmt} (h : Sane k) (hc : k.cont k.running = stmt :: xs)
    (he : Effect k stmt xs k') : Sane k' where
  exists_running := he.exists_running
  exists_idle := he.idle ▸ Nat.lt_of_lt_of_le h.exists_idle he.nextTid
  formed t := by
    by_cases ht : t = k.running
    · rw [ht, he.self]
      exact contAfter_formed k (hc ▸ h.formed k.running)
    · rcases he.others t ht with ho | ⟨-, ho⟩
      · exact ho ▸ h.formed t
      · exact ho ▸ .single trivial
  idle_cont := by
    rw [he.idle]
    have hidle := h.idle_cont
    by_cases ht : k.idle = k.running
    · rw [ht, he.self]
      rw [ht, hc] at hidle
      have hxs : k.contAfter xs stmt = xs := by
        rcases hidle stmt List.mem_cons_self with rfl | ⟨old, rfl⟩ <;> rfl
      rw [hxs]
      exact fun stmt hs => hidle stmt (List.mem_cons_of_mem _ hs)
    · rcases he.others _ ht with ho | ⟨hn, -⟩
      · rw [ho]
        exact hidle
      · exact absurd hn (Nat.ne_of_lt h.exists_idle)

omit [ThreadQueues M] in
theorem next?_of_cont {stmt : Stmt} {xs : List Stmt} (hc : k.cont k.running = stmt :: xs) : k.next? = some stmt := by
  unfold next?
  rw [hc]
  rfl

theorem step_run (hs : k.step .run = some k') :
    ∃ stmt xs, k.cont k.running = stmt :: xs ∧ (k.pop xs).exec stmt = some k' := by
  unfold step at hs
  dsimp only at hs
  split at hs
  · cases hs
  · next stmt xs hc => exact ⟨stmt, xs, hc, hs⟩

/-- A statement of the running thread, and its effect. -/
theorem run_effect (h : Sane k) (hs : k.step .run = some k') :
    ∃ stmt xs, k.cont k.running = stmt :: xs ∧ Effect k stmt xs k' ∧ (k.pop xs).exec stmt = some k' := by
  obtain ⟨stmt, xs, hc, hx⟩ := step_run hs
  exact ⟨stmt, xs, hc, exec_effect h.exists_running hx, hx⟩

theorem step_call {op : ThreadOp} (hs : k.step (.call op) = some k') :
    k.running ≠ k.idle ∧ k.cont k.running = [] ∧ k' = k.enter op.body := by
  unfold step at hs
  dsimp only at hs
  split_ifs at hs with h
  exact ⟨h.1, h.2, (Option.some.inj hs).symm⟩

theorem step_interrupt (hs : k.step .interrupt = some k') :
    k.intr = true ∧ (k.disableInterrupts.enter [.isrReturn k.level]).yieldCurrent = some k' := by
  unfold step at hs
  dsimp only at hs
  split_ifs at hs with h
  exact ⟨h, hs⟩

omit [ThreadQueues M] in
theorem enter_others (k : Kernel M) (xs : List Stmt) {t : ℕ} (ht : t ≠ k.running) : (k.enter xs).cont t = k.cont t :=
  Function.update_of_ne ht _ _

omit [ThreadQueues M] in
theorem enter_nil (k : Kernel M) : k.enter [] = k := by
  unfold enter
  rw [List.nil_append, Function.update_eq_self]

omit [ThreadQueues M] in
theorem enter_self (k : Kernel M) (xs : List Stmt) : (k.enter xs).cont k.running = xs ++ k.cont k.running :=
  Function.update_self ..

omit [ThreadQueues M] in
/-- A thread outside of the kernel, other than the idle thread, begins to run what it can have to run. -/
theorem Sane.enter (h : Sane k) (hidle : k.running ≠ k.idle) (hc : k.cont k.running = []) {xs : List Stmt}
    (hx : Formed xs) : Sane (k.enter xs) := by
  refine ⟨h.exists_running, h.exists_idle, fun t => ?_, ?_⟩
  · by_cases ht : t = k.running
    · rw [ht, enter_self, hc, List.append_nil]
      exact hx
    · rw [enter_others _ _ ht]
      exact h.formed t
  · show ∀ stmt ∈ (k.enter xs).cont k.idle, _
    rw [enter_others _ _ hidle.symm]
    exact h.idle_cont

/-- **Sane kernels stay sane**, whatever threads call. -/
theorem Sane.step (h : Sane k) {act : Action} (hs : k.step act = some k') : Sane k' := by
  cases act with
  | call op =>
      obtain ⟨hidle, hc, rfl⟩ := step_call hs
      exact h.enter hidle hc op.formed
  | run =>
      obtain ⟨stmt, xs, hc, he, -⟩ := run_effect h hs
      exact he.sane h hc
  | interrupt =>
      have hsw := yieldCurrent_switch (step_interrupt hs).2
      have hself : k'.cont k.running = .isrReturn k.level :: k.cont k.running := by
        rw [hsw.cont]
        exact enter_self k.disableInterrupts _
      have hothers : ∀ t, t ≠ k.running → k'.cont t = k.cont t := by
        intro t ht
        rw [hsw.cont]
        exact enter_others k.disableInterrupts _ ht
      refine ⟨hsw.nextTid ▸ hsw.exists_running, ?_, fun t => ?_, ?_⟩
      · rw [hsw.idle, hsw.nextTid]
        exact h.exists_idle
      · by_cases ht : t = k.running
        · rw [ht, hself]
          exact .isr _ (h.formed _)
        · rw [hothers t ht]
          exact h.formed t
      · rw [show k'.idle = k.idle from hsw.idle]
        by_cases ht : k.idle = k.running
        · rw [ht, hself, List.forall_mem_cons, ← ht]
          exact ⟨.inr ⟨_, rfl⟩, h.idle_cont⟩
        · rw [hothers _ ht]
          exact h.idle_cont

/-- The idle thread stays the same, and no thread's id is given up. -/
theorem Sane.step_keeps (h : Sane k) {act : Action} (hs : k.step act = some k') :
    k'.idle = k.idle ∧ k.nextTid ≤ k'.nextTid := by
  cases act with
  | call op =>
      obtain ⟨-, -, rfl⟩ := step_call hs
      exact ⟨rfl, Nat.le_refl _⟩
  | interrupt =>
      have hsw := yieldCurrent_switch (step_interrupt hs).2
      exact ⟨hsw.idle, hsw.nextTid.ge⟩
  | run =>
      obtain ⟨stmt, xs, -, he, -⟩ := run_effect h hs
      exact ⟨he.idle, he.nextTid⟩

/-! ### What is pending on a semaphore -/

/-- The statements of `xs` that use the semaphore. -/
def pending (x : Sema) (xs : List Stmt) : List Stmt := xs.filter fun stmt => stmt.sema? = some x

omit [ThreadQueues M] in
theorem pending_cons_of_ne {x : Sema} {stmt : Stmt} (h : stmt.sema? ≠ some x) (xs : List Stmt) :
    pending x (stmt :: xs) = pending x xs := by
  unfold pending
  exact List.filter_cons_of_neg (by simpa using h)

omit [ThreadQueues M] in
theorem pending_cons_of_eq {x : Sema} {stmt : Stmt} (h : stmt.sema? = some x) (xs : List Stmt) :
    pending x (stmt :: xs) = stmt :: pending x xs := by
  unfold pending
  exact List.filter_cons_of_pos (by simpa using h)

omit [ThreadQueues M] in
theorem pending_body {i : ℕ} {op : ThreadOp} (hinc : op ≠ .semaphoreInc i) (hdec : op ≠ .semaphoreDec i) :
    pending (.sem i) op.body = [] := by
  cases op with
  | semaphoreInc j =>
      have hne : j ≠ i := fun h => hinc (congrArg _ h)
      simp [pending, ThreadOp.body, Stmt.sema?, hne]
  | semaphoreDec j =>
      have hne : j ≠ i := fun h => hdec (congrArg _ h)
      simp [pending, ThreadOp.body, Stmt.sema?, hne]
  | _ => rfl

/-- A statement that does not use a semaphore leaves pending what stands behind it. -/
theorem pending_contAfter (k : Kernel M) {stmt : Stmt} {i : ℕ} (h : stmt.sema? ≠ some (.sem i)) (xs : List Stmt) :
    pending (.sem i) (k.contAfter xs stmt) = pending (.sem i) xs := by
  cases stmt with
  | semaphoreDec s =>
      show pending (.sem i) (if _ then _ else _) = _
      split_ifs
      · exact @pending_cons_of_ne _ (.decLoop s 0 k.level) h xs
      · rfl
  | decLoop s value old =>
      show pending (.sem i) (if _ then _ else _) = _
      split_ifs
      · exact pending_cons_of_ne h xs
      · rfl
  | signalAll c l =>
      show pending (.sem i) (if _ then _ else _) = _
      split_ifs
      · rfl
      · show List.filter _ ((condvarSignalOne c l ++ condvarSignalAll c l) ++ xs) = _
        rw [List.filter_append]
        rfl
  | _ => rfl

/-- What threads other than the running one have pending. -/
theorem Effect.pending_others {stmt : Stmt} {xs : List Stmt} (he : Effect k stmt xs k') {x : Sema} {t : ℕ}
    (ht : t ≠ k.running) (hnew : t = k.nextTid → pending x (k.cont t) = []) :
    pending x (k'.cont t) = pending x (k.cont t) := by
  rcases he.others t ht with ho | ⟨hn, ho⟩
  · rw [ho]
  · rw [ho, hnew hn]
    rfl

/-- On an interrupt only the running thread gets more to run, and nothing on a semaphore. -/
theorem interrupt_pending (hs : k.step .interrupt = some k') (x : Sema) (t : ℕ) :
    pending x (k'.cont t) = pending x (k.cont t) := by
  have hsw := yieldCurrent_switch (step_interrupt hs).2
  rw [hsw.cont]
  by_cases ht : t = k.running
  · rw [ht]
    refine (congrArg (pending x) (enter_self k.disableInterrupts _)).trans ?_
    exact pending_cons_of_ne (by simp [Stmt.sema?]) _
  · exact congrArg (pending x) (enter_others k.disableInterrupts _ ht)

/-! ### What is left behind a statement -/

/-- `semaphore_dec` does not return from a semaphore that is zero. -/
theorem Effect.waits {stmt : Stmt} {xs : List Stmt} {x : Sema} (he : k.Effect stmt xs k')
    (hf : Formed (stmt :: xs)) (hx : stmt.sema? = some x) (hinc : stmt ≠ .semaphoreInc x) (hv : k.value x = 0) :
    k'.value x = 0 ∧ ∃ old, k'.cont k.running = .decLoop x 0 old :: xs := by
  rw [he.value, he.self]
  cases stmt with
  | semaphoreInc y =>
      obtain rfl : y = x := Option.some.inj hx
      exact absurd rfl hinc
  | semaphoreDec y =>
      obtain rfl : y = x := Option.some.inj hx
      have hval : k.valueAfter (.semaphoreDec y) = k.value := if_pos hv
      exact ⟨(congrFun hval y).trans hv, k.level, if_pos hv⟩
  | decLoop y value old =>
      obtain rfl : y = x := Option.some.inj hx
      have h₀ : value = 0 := by
        cases hf with
        | acquireLoop => rfl
        | single h =>
            cases y with
            | sem i => exact h
            | binary l => exact h.elim
      subst h₀
      exact ⟨hv, old, rfl⟩
  | _ => cases hx

omit [ThreadQueues M] in
theorem mem_of_mem_enter {stmt : Stmt} {xs : List Stmt} (h : stmt ∉ xs) {t : ℕ} (hin : stmt ∈ (k.enter xs).cont t) :
    stmt ∈ k.cont t := by
  rcases eq_or_ne t k.running with rfl | ht
  · rw [enter_self] at hin
    exact (List.mem_append.mp hin).resolve_left h
  · rwa [enter_others _ _ ht] at hin

theorem Called.mem_contAfter {stmt stmt' : Stmt} (hs : stmt'.Called) {xs : List Stmt}
    (h : stmt' ∈ k.contAfter xs stmt) : stmt' ∈ xs := by
  cases stmt with
  | semaphoreDec x =>
      unfold contAfter at h
      dsimp only at h
      split_ifs at h
      · exact (List.mem_cons.mp h).resolve_left fun he => by subst he; exact hs
      · exact h
  | decLoop x value old =>
      unfold contAfter at h
      dsimp only at h
      split_ifs at h
      · exact (List.mem_cons.mp h).resolve_left fun he => by subst he; exact hs
      · exact h
  | signalAll c l =>
      unfold contAfter at h
      dsimp only at h
      split_ifs at h
      · exact h
      · rcases List.mem_append.mp h with h | h
        · simp only [condvarSignalOne, condvarSignalAll, lockRelease, lockAcquire, List.cons_append, List.nil_append,
            List.mem_cons, List.not_mem_nil, or_false] at h
          rcases h with rfl | rfl | rfl | rfl | rfl | rfl <;> exact hs.elim
        · exact h
  | _ => exact h

/-- Behind a statement, only threads have such a statement to run that had it before. -/
theorem Effect.called {stmt stmt' : Stmt} {xs : List Stmt} (he : k.Effect stmt xs k') (hc : k.cont k.running = stmt :: xs)
    {t : ℕ} (hin : stmt' ∈ k'.cont t) (hs : stmt'.Called) : stmt' ∈ k.cont t := by
  rcases eq_or_ne t k.running with rfl | ht
  · rw [he.self] at hin
    rw [hc]
    exact List.mem_cons_of_mem _ (Called.mem_contAfter hs hin)
  · rcases he.others t ht with ho | ⟨-, ho⟩
    · exact ho ▸ hin
    · rw [ho] at hin
      obtain rfl := List.mem_singleton.mp hin
      exact hs.elim

/-- A semaphore that is zero stays zero unless it is incremented. -/
theorem Effect.stays_zero {stmt : Stmt} {xs : List Stmt} {x : Sema} (he : k.Effect stmt xs k')
    (hf : Formed (stmt :: xs)) (hne : stmt ≠ .semaphoreInc x) (hv : k.value x = 0) : k'.value x = 0 := by
  by_cases hx : stmt.sema? = some x
  · exact (he.waits hf hx hne hv).1
  · rw [he.value, valueAfter_of_ne k hx, hv]

/-- Who waits for a semaphore that is zero goes on to wait. -/
theorem Effect.keeps_waiting {stmt : Stmt} {xs : List Stmt} {i : ℕ} (he : k.Effect stmt xs k')
    (hc : k.cont k.running = stmt :: xs) (hf : Formed (stmt :: xs)) (hne : stmt ≠ .semaphoreInc (.sem i))
    (hv : k.value (.sem i) = 0) (hp : pending (.sem i) (k.cont k.running) ≠ []) :
    pending (.sem i) (k'.cont k.running) ≠ [] := by
  by_cases hx : stmt.sema? = some (.sem i)
  · obtain ⟨-, old, hcont⟩ := he.waits hf hx hne hv
    rw [hcont, pending_cons_of_eq rfl]
    exact List.cons_ne_nil _ _
  · rw [he.self, pending_contAfter k hx]
    rwa [hc, pending_cons_of_ne hx] at hp

section
variable (mem : M) (value : ℕ → ℕ) (level : InterruptLevel) (intr : Bool)

theorem initThreads_running : (initThreads mem value level intr).running = 0 := by
  unfold initThreads
  rw [threadUnblock_eq]
  rfl

theorem initThreads_idle : (initThreads mem value level intr).idle = 1 := by
  unfold initThreads
  rw [threadUnblock_eq]
  rfl

theorem initThreads_nextTid : (initThreads mem value level intr).nextTid = 2 := by
  unfold initThreads
  rw [threadUnblock_eq]
  rfl

theorem initThreads_value (i : ℕ) : (initThreads mem value level intr).value (.sem i) = value i := by
  unfold initThreads
  rw [threadUnblock_eq]
  rfl

/-- The idle thread is not put on the ready list. -/
theorem initThreads_mem : (initThreads mem value level intr).mem = mem := by
  unfold initThreads
  rw [threadUnblock_eq]
  show (if (1 : ℕ) ≠ 1 then pushBack mem .ready (.node 1) else mem) = mem
  exact if_neg (not_not.mpr rfl)

/-- After `init_threads` only the idle thread has something to run. -/
theorem initThreads_cont (t : ℕ) : (initThreads mem value level intr).cont t = if t = 1 then [.startThread] else [] := by
  unfold initThreads
  rw [threadUnblock_eq]
  exact Function.update_apply ..

theorem initThreads_pending (x : Sema) (t : ℕ) : pending x ((initThreads mem value level intr).cont t) = [] := by
  rw [initThreads_cont]
  split_ifs <;> rfl

theorem initThreads_not_mem {stmt : Stmt} (h : stmt ≠ .startThread) (t : ℕ) :
    stmt ∉ (initThreads mem value level intr).cont t := by
  rw [initThreads_cont]
  split_ifs
  · exact fun hin => h (List.mem_singleton.mp hin)
  · exact List.not_mem_nil

theorem initThreads_sane : Sane (initThreads mem value level intr) := by
  refine ⟨?_, ?_, fun t => ?_, ?_⟩
  · rw [initThreads_running, initThreads_nextTid]
    exact Nat.zero_lt_two
  · rw [initThreads_idle, initThreads_nextTid]
    exact Nat.one_lt_two
  · rw [initThreads_cont]
    split_ifs
    · exact .single trivial
    · exact .nil
  · rw [initThreads_idle, initThreads_cont, if_pos rfl]
    intro stmt hs
    exact .inl (List.mem_singleton.mp hs)

end

end Kernel

end Dunkos
