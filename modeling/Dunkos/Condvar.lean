import Dunkos.Semaphore

/-! # Signals of condition variables

`condvar_signal_one` moves what `list_pop_front` returns to the ready list.  When the list of waiters is
empty that is `NULL`, which a thread that has released the lock in `condvar_wait` and has not come to
`list_push_back` does not prevent (`condvar_signal_pushes_null`).  The thread that is moved keeps the
status `THRSTAT_BLOCKED`, so `yield_current` drops it when it is interrupted.

`Attended` excludes these; `condvar_signal_wakes` says that then every signal makes a thread ready that
was waiting, and that no thread is lost in `condvar_wait` before it is on the list, nor in
`condvar_signal_one` before it has signalled. -/

namespace Dunkos

open ThreadQueues

/-- Proper use, no `thread_block` of another thread, and no interrupt of a thread whose status is
`THRSTAT_BLOCKED`. -/
def Attended {M : Type} [ThreadQueues M] (k : Kernel M) (act : Action) : Prop :=
  k.Proper act ∧ (act = .run → ∀ thr, k.next? = some (.threadBlock thr) → thr = k.running) ∧
    (act = .interrupt → k.status k.running ≠ .blocked)

/-- The thread is to go on a list of waiters, or to signal. -/
def Engaged (xs : List Stmt) : Prop := ∃ c, .waitPush c ∈ xs ∨ .signalMove c ∈ xs

/-- Threads that are about to wait or to signal run or are ready. -/
def NoneLost {M : Type} [ThreadQueues M] (k : Kernel M) : Prop :=
  ∀ t, Engaged (k.cont t) → t = k.running ∨ t ∈ members k.mem .ready

/-- `condvar_signal_one` takes the thread `w` off the list, which was blocked in `condvar_wait`, and makes
it the last that is ready. -/
structure Signalled {M : Type} [ThreadQueues M] (k k' : Kernel M) (c w : ℕ) : Prop where
  waited : (members k.mem (.cond c)).head? = some w
  blocked : k.status w = .blocked ∧ ∃ l, k.cont w = lockAcquire l
  waiters : members k'.mem (.cond c) = (members k.mem (.cond c)).tail
  off : w ∉ members k'.mem (.cond c)
  ready : members k'.mem .ready = members k.mem .ready ++ [w]
  others : ∀ l, l ≠ .cond c → l ≠ .ready → members k'.mem l = members k.mem l
  status : k'.status = k.status
  running : k'.running = k.running

/-! ### Threads that wait or signal -/

/-- In front of `list_push_back` and of the signal there is nothing that blocks. -/
theorem Formed.engaged_tail {stmt : Stmt} {xs : List Stmt} (h : Formed (stmt :: xs)) (he : Engaged xs) :
    (∃ old, stmt = .isrReturn old) ∨ (∃ l, stmt = .clearHolder l) ∨ ∃ l, stmt = .semaphoreInc (.binary l) := by
  obtain ⟨c, hc⟩ := he
  have hacq : ∀ {l : ℕ} {ys : List Stmt}, AfterAcquire l ys → ¬ (.waitPush c ∈ ys ∨ .signalMove c ∈ ys) := by
    intro l ys hy
    cases hy <;> simp [condvarSignalAll]
  cases h with
  | single _ => simp at hc
  | isr old _ => exact .inl ⟨old, rfl⟩
  | release _ => exact .inr (.inl ⟨_, rfl⟩)
  | released _ => exact .inr (.inr ⟨_, rfl⟩)
  | acquire hx => exact absurd hc (by simpa using hacq hx)
  | acquireLoop _ hx => exact absurd hc (by simpa using hacq hx)
  | acquired hx => exact absurd hc (hacq hx)
  | push c l => simp [lockAcquire] at hc
  | block c l => simp [lockAcquire] at hc
  | move c hx => exact absurd hc (by simpa [lockAcquire] using hacq hx)

namespace NoneLost
open Kernel
variable {a a' : Kernel Seqs}

/-- A statement of the running thread. -/
theorem exec (h : NoneLost a) (hi : Inv a) {stmt : Stmt} {xs : List Stmt} (hc : a.cont a.running = stmt :: xs)
    (hb : ∀ thr, stmt = .threadBlock thr → thr = a.running) (he : Effect a stmt xs a')
    (hs : (a.pop xs).exec stmt = some a') : NoneLost a' := by
  have hform : Formed (stmt :: xs) := hc ▸ hi.sane.formed a.running
  intro t ht
  by_cases htr : t = a.running
  · subst htr
    rw [he.self] at ht
    by_cases hall : ∃ c l, stmt = .signalAll c l
    · obtain ⟨c, l, rfl⟩ := hall
      have hs' : (if isEmpty a.mem (.cond c) then a.pop xs
          else (a.pop xs).enter (condvarSignalOne c l ++ condvarSignalAll c l)) = a' := Option.some.inj hs
      left
      rw [← hs']
      split_ifs <;> rfl
    · have hxs : Engaged xs := by
        cases stmt with
        | semaphoreDec s =>
            have ht' : Engaged (if a.value s = 0 then .decLoop s 0 a.level :: xs else xs) := ht
            split_ifs at ht'
            · simpa [Engaged] using ht'
            · exact ht'
        | decLoop s value old =>
            have ht' : Engaged (if value = 0 then .decLoop s value old :: xs else xs) := ht
            split_ifs at ht'
            · simpa [Engaged] using ht'
            · exact ht'
        | signalAll c l => exact absurd ⟨c, l, rfl⟩ hall
        | _ => exact ht
      left
      rcases hform.engaged_tail hxs with ⟨old, rfl⟩ | ⟨l, rfl⟩ | ⟨l, rfl⟩
      · cases hs
        rfl
      · cases hs
        rfl
      · exact (semaphoreInc_frame hs).2.symm
  · have hcont : a'.cont t = a.cont t := by
      refine (he.others t htr).resolve_right fun hn => ?_
      obtain ⟨c, hx⟩ := ht
      rw [hn.2] at hx
      simp at hx
    rw [hcont] at ht
    exact (Flow.exec hb hs).ready t ((h t ht).resolve_left htr)

/-- **One step**: no thread is lost before it waits or signals. -/
theorem step (h : NoneLost a) (hi : Inv a) {act : Action} (hok : Attended a act) (hs : a.step act = some a') :
    NoneLost a' := by
  obtain ⟨-, hb, hst⟩ := hok
  cases act with
  | call op =>
      obtain ⟨-, hc, rfl⟩ := step_call hs
      intro t ht
      by_cases htr : t = a.running
      · exact .inl htr
      · rw [enter_others _ _ htr] at ht
        exact h t ht
  | run =>
      obtain ⟨stmt, xs, hc, he, hex⟩ := run_effect hi.sane hs
      have hn : a.next? = some stmt := next?_of_cont hc
      exact h.exec hi hc (fun thr hstmt => hb rfl thr (hstmt ▸ hn)) he hex
  | interrupt =>
      have hy := (step_interrupt hs).2
      intro t ht
      by_cases htr : t = a.running
      · subst htr
        exact Flow.yieldCurrent_self (a := a.disableInterrupts.enter [.isrReturn a.level]) (hst rfl) hy
      · rw [(yieldCurrent_switch hy).cont] at ht
        have ht' : Engaged (a.cont t) := enter_others a.disableInterrupts _ htr ▸ ht
        have hflow : Flow none (a.disableInterrupts.enter [.isrReturn a.level]) a' := .yieldCurrent hy
        exact hflow.ready t ((h t ht').resolve_left htr)

end NoneLost

/-- A signal, on sequences. -/
theorem Inv.signalled {a a' : Kernel Seqs} (h : Inv a) {c : ℕ} (hok : a.Proper .run)
    (hn : a.next? = some (.signalMove c)) (hs : a.step .run = some a') : ∃ w, Signalled a a' c w := by
  obtain ⟨stmt, xs, hc, -, hex⟩ := Kernel.run_effect h.sane hs
  have hstmt : stmt = .signalMove c := Option.some.inj ((Kernel.next?_of_cont hc).symm.trans hn)
  subst hstmt
  obtain ⟨w, ws, hx⟩ := List.exists_cons_of_ne_nil (hok _ hn)
  have hx' : a.mem (.cond c) = w :: ws := hx
  have hpop : popFront (a.pop xs).mem (.cond c) = (Function.update a.mem (.cond c) ws, .node w) := popFront_cons hx'
  have ha' : a' = { a.pop xs with mem := pushBack (Function.update a.mem (.cond c) ws) .ready (.node w) } := by
    unfold Kernel.exec at hex
    dsimp only at hex
    rw [hpop] at hex
    exact (Option.some.inj hex).symm
  have hp := h.placed_pop hc (by simp)
  have hne : w ≠ a.running := hp.waiter_ne hx'
  have hoff := (h.queues.pop hx').2.1
  have hother : ∀ l, l ≠ .ready → a'.mem l = Function.update a.mem (.cond c) ws l := by
    intro l hl
    rw [ha']
    exact Function.update_of_ne hl _ _
  have hcond : a'.mem (.cond c) = ws := by
    rw [hother _ (by simp), Function.update_self]
  refine ⟨w, ?_, ?_, ?_, ?_, ?_, fun l hl hr => ?_, by rw [ha']; rfl, by rw [ha']; rfl⟩
  · show (a.mem (.cond c)).head? = some w
    rw [hx']
    rfl
  · exact (h.others w hne).cond c (hx' ▸ List.mem_cons_self)
  · show a'.mem (.cond c) = (a.mem (.cond c)).tail
    rw [hcond, hx']
    rfl
  · show w ∉ a'.mem (.cond c)
    rw [hother _ (by simp)]
    exact hoff _
  · show a'.mem .ready = a.mem .ready ++ [w]
    rw [ha']
    show Function.update (Function.update a.mem (.cond c) ws) .ready
      (Function.update a.mem (.cond c) ws .ready ++ [w]) .ready = _
    rw [Function.update_self, Function.update_of_ne (by simp)]
  · show a'.mem l = a.mem l
    rw [hother l hr, Function.update_of_ne hl]

/-! ### Reachable states -/

theorem Attended.refines {k : Kernel (ListMem Queue ℕ)} {a : Kernel Seqs} (h : Refines k a) {act : Action}
    (hok : Attended k act) : Attended a act := by
  obtain ⟨hp, hb, hst⟩ := hok
  rw [h.next?, h.threads] at hb
  rw [h.threads] at hst
  exact ⟨h.proper hp, hb, hst⟩

theorem Signalled.of_refines {k k' : Kernel (ListMem Queue ℕ)} {a a' : Kernel Seqs} (h : Refines k a)
    (h' : Refines k' a') {c w : ℕ} (hs : Signalled a a' c w) : Signalled k k' c w := by
  have hm : ∀ l, members k.mem l = members a.mem l := members_eq h.mem
  have hm' : ∀ l, members k'.mem l = members a'.mem l := members_eq h'.mem
  refine ⟨?_, ?_, ?_, ?_, ?_, fun l hc hr => ?_, ?_, ?_⟩
  · rw [hm]
    exact hs.waited
  · rw [h.threads]
    exact hs.blocked
  · rw [hm, hm']
    exact hs.waiters
  · rw [hm']
    exact hs.off
  · rw [hm, hm']
    exact hs.ready
  · rw [hm, hm']
    exact hs.others l hc hr
  · rw [h.threads, h'.threads]
    exact hs.status
  · rw [h.threads, h'.threads]
    exact hs.running

/-- A signal in proper use. -/
theorem Refines.signalled {k k' : Kernel (ListMem Queue ℕ)} {a : Kernel Seqs} (hr : Refines k a) (hi : Inv a) {c : ℕ}
    (hok : k.Proper .run) (hn : k.next? = some (.signalMove c)) (hs : k.step .run = some k') :
    ∃ w, Signalled k k' c w := by
  obtain ⟨a', ha, hr', -⟩ := hr.follow hi hok hs
  obtain ⟨w, hw⟩ := hi.signalled (hr.proper hok) (hr.next?.symm.trans hn) ha
  exact ⟨w, hw.of_refines hr hr'⟩

end Dunkos
