import Dunkos.ThreadRun
import Dunkos.IntrusiveList
import Dunkos.Lib.Reach

/-! # Calls of `semaphore_dec` that block (`thread.c`)

The loop of `semaphore_dec` tests a local variable that nothing in it assigns.  `semaphore_dec_returns_iff` says what
this means for `lock_acquire`, `condvar_wait` and all else that waits: who does not find a unit at once stays in the loop,
whoever wakes it. -/

namespace Dunkos

open ThreadQueues Transition

namespace Kernel
variable {M : Type} [ThreadQueues M] {k k' : Kernel M} {t : ℕ} {s : Sema} {xs : List Stmt}

/-- The thread is in the loop of `semaphore_dec`, or in interrupts that came in there, and has `xs` to run behind it. -/
structure InLoop (k : Kernel M) (t : ℕ) (s : Sema) (xs : List Stmt) : Prop where
  exists_thread : t < k.nextTid
  cont : ∃ ys old, k.cont t = ys ++ .decLoop s 0 old :: xs ∧ ∀ stmt ∈ ys, ∃ o, stmt = .isrReturn o

omit [ThreadQueues M] in
theorem InLoop.not_returned (h : InLoop k t s xs) : k.cont t ≠ xs := by
  obtain ⟨-, ys, old, hc, -⟩ := h
  intro hx
  have hlen := congrArg List.length (hc.symm.trans hx)
  rw [List.length_append, List.length_cons] at hlen
  omega

omit [ThreadQueues M] in
theorem InLoop.keep (h : InLoop k t s xs) (hn : k.nextTid ≤ k'.nextTid) (hc : k'.cont t = k.cont t) : InLoop k' t s xs :=
  ⟨Nat.lt_of_lt_of_le h.exists_thread hn, by rw [hc]; exact h.cont⟩

/-- **One step** of any thread leaves it there: its own steps return from an interrupt or go around the loop. -/
theorem InLoop.step (h : InLoop k t s xs) (hk : Sane k) {act : Action} (hs : k.step act = some k') : InLoop k' t s xs := by
  have hn := (hk.step_keeps hs).2
  have hlt := Nat.lt_of_lt_of_le h.exists_thread hn
  obtain ⟨ys, old, hc, hys⟩ := h.cont
  rcases eq_or_ne t k.running with rfl | ht
  · cases act with
    | call op =>
        obtain ⟨-, hnil, -⟩ := step_call hs
        rw [hnil] at hc
        exact absurd hc.symm (by simp)
    | interrupt =>
        have hsw := yieldCurrent_switch (step_interrupt hs).2
        refine ⟨hlt, .isrReturn k.level :: ys, old, ?_, List.forall_mem_cons.mpr ⟨⟨_, rfl⟩, hys⟩⟩
        rw [hsw.cont, List.cons_append, ← hc]
        exact enter_self k.disableInterrupts _
    | run =>
        obtain ⟨stmt, rest, hrest, he, -⟩ := run_effect hk hs
        rw [hrest] at hc
        cases ys with
        | nil =>
            obtain ⟨rfl, rfl⟩ := List.cons.inj hc
            exact ⟨hlt, [], old, he.self, hys⟩
        | cons y ys =>
            obtain ⟨rfl, rfl⟩ := List.cons.inj hc
            obtain ⟨⟨o, rfl⟩, hys'⟩ := List.forall_mem_cons.mp hys
            exact ⟨hlt, ys, old, he.self, hys'⟩
  · apply h.keep hn
    cases act with
    | call op =>
        obtain ⟨-, -, rfl⟩ := step_call hs
        exact enter_others k _ ht
    | interrupt =>
        rw [(yieldCurrent_switch (step_interrupt hs).2).cont]
        exact enter_others k.disableInterrupts _ ht
    | run =>
        obtain ⟨stmt, rest, -, he, -⟩ := run_effect hk hs
        exact (he.others t ht).resolve_right fun hnew => absurd h.exists_thread (hnew.1 ▸ Nat.lt_irrefl _)

/-- **Runs** leave it there. -/
theorem InLoop.run (h : InLoop k t s xs) (hk : Sane k) (hr : Reach Kernel.step (fun _ _ => True) k k') : InLoop k' t s xs :=
  (hr.invariant (I := fun k => Sane k ∧ InLoop k t s xs) ⟨hk, h⟩ fun _ _ _ h _ hs => ⟨h.1.step hs, h.2.step h.1 hs⟩).2

/-- Where `semaphore_dec` leaves the thread that calls it. -/
theorem semaphoreDec_cont (hk : Sane k) (hc : k.cont k.running = .semaphoreDec s :: xs) (hs : k.step .run = some k') :
    if k.value s = 0 then InLoop k' k.running s xs else k'.cont k.running = xs := by
  obtain ⟨stmt, rest, hrest, he, -⟩ := run_effect hk hs
  rw [hrest] at hc
  obtain ⟨rfl, rfl⟩ := List.cons.inj hc
  have hself : k'.cont k.running = if k.value s = 0 then .decLoop s 0 k.level :: rest else rest := he.self
  split_ifs at hself ⊢
  · exact ⟨Nat.lt_of_lt_of_le hk.exists_running he.nextTid, [], k.level, hself, by simp⟩
  · exact hself

end Kernel

/-- **Blocked calls.**  In every state of every run, whatever threads call: a call of `semaphore_dec`, also one from
`lock_acquire` or `condvar_wait`, returns in some continuation of the run if and only if it finds the value of the
semaphore positive.  No `semaphore_inc` brings back a thread that has blocked. -/
theorem semaphore_dec_returns_iff {M : Type} [ThreadQueues M] {mem : M} {value : ℕ → ℕ} {level : InterruptLevel}
    {intr : Bool} {k k' : Kernel M} (hk : Reach Kernel.step (fun _ _ => True) (initThreads mem value level intr) k)
    {s : Sema} {xs : List Stmt} (hc : k.cont k.running = .semaphoreDec s :: xs) (hs : k.step .run = some k') :
    (∃ k'', Reach Kernel.step (fun _ _ => True) k' k'' ∧ k''.cont k.running = xs) ↔ k.value s ≠ 0 := by
  have hsane : k.Sane := hk.invariant (Kernel.initThreads_sane mem value level intr) fun _ _ _ h _ hs => h.step hs
  have hcont := Kernel.semaphoreDec_cont hsane hc hs
  constructor
  · rintro ⟨k'', hr, hx⟩ hv
    rw [if_pos hv] at hcont
    exact (hcont.run (hsane.step hs) hr).not_returned hx
  · intro hv
    rw [if_neg hv] at hcont
    exact ⟨k', .start, hcont⟩

/-- Thread `2` finds the lock of thread `0` taken; `0` may well release it. -/
theorem semaphore_dec_returns_iff_taken :
    let mem : ListMem Queue ℕ := ⟨fun _ => .null, fun _ => .null, fun _ => 0⟩
    ∃ k k', Transition.runs Kernel.step (fun _ _ => True) (initThreads mem (fun _ => 0) .enabled true)
        [.call .createThread, .run, .call (.lockAcquire 0), .run, .run, .interrupt, .run, .call (.lockAcquire 0)] = some k ∧
      k.running = 2 ∧ k.step .run = some k' ∧
      ¬ ∃ k'', Reach Kernel.step (fun _ _ => True) k' k'' ∧ k''.cont k.running = [.setHolder 0] := by
  intro mem
  have hrun : ((Transition.runs Kernel.step (fun _ _ => True) (initThreads mem (fun _ => 0) .enabled true)
      [.call .createThread, .run, .call (.lockAcquire 0), .run, .run, .interrupt, .run, .call (.lockAcquire 0)]).bind fun k =>
        (k.step .run).map fun _ => (k.running, k.cont k.running, k.value (.binary 0))) =
      some (2, [.semaphoreDec (.binary 0), .setHolder 0], 0) := by
    decide +kernel
  obtain ⟨k, hk, hrun⟩ := Option.bind_eq_some_iff.mp hrun
  obtain ⟨k', hs, he⟩ := Option.map_eq_some_iff.mp hrun
  simp only [Prod.mk.injEq] at he
  obtain ⟨hr, hc, hv⟩ := he
  refine ⟨k, k', hk, hr, hs, fun hret => ?_⟩
  exact (semaphore_dec_returns_iff (.of_runs hk) hc hs).mp hret hv

end Dunkos
