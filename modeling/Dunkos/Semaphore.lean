import Dunkos.Places

/-! # Wakeups of kernel semaphores

`semaphore_dec` reads the value once, before its loop, so a thread that was woken runs the loop with
`value` zero, whatever the value of the semaphore is, and goes back to sleep.

`Flow` says what a statement does to the ready list and to the lists of waiters.
`semaphore_no_lost_wakeup` is about runs in which a woken thread finds the value zero again
(`TakesNothing`); `semaphore_wakeup_lost` shows the first run in which it does not. -/

namespace Dunkos

open ThreadQueues

/-- The thread was popped off the waiters of `s` and has not returned from `semaphore_dec`. -/
def Woken {M : Type} [ThreadQueues M] (k : Kernel M) (s : Sema) (t : ℕ) : Prop :=
  t ∉ members k.mem (.sema s) ∧ ∃ value old, .decLoop s value old ∈ k.cont t

/-- If there are units and waiters, then a woken thread is running or ready. -/
def WakeupPending {M : Type} [ThreadQueues M] (k : Kernel M) (s : Sema) : Prop :=
  0 < k.value s → members k.mem (.sema s) ≠ [] → ∃ t, (t = k.running ∨ t ∈ members k.mem .ready) ∧ Woken k s t

/-- Proper use, with no `thread_block` of another thread, and no woken thread that resumes while the
value of `s` is positive. -/
def TakesNothing {M : Type} [ThreadQueues M] (s : Sema) (k : Kernel M) (act : Action) : Prop :=
  k.Proper act ∧ (act = .run → (∀ thr, k.next? = some (.threadBlock thr) → thr = k.running) ∧
    ∀ value old, k.next? = some (.decLoop s value old) → k.value s = 0)

/-! ### What statements do to the lists -/

/-- Who is ready stays ready or runs, and the lists of waiters are kept, but for one. -/
structure Flow (touched : Option Sema) (a a' : Kernel Seqs) : Prop where
  ready : ∀ t ∈ a.mem .ready, t = a'.running ∨ t ∈ a'.mem .ready
  sema : ∀ s, touched ≠ some s → a'.mem (.sema s) = a.mem (.sema s)

namespace Flow
open Kernel
variable {u : Option Sema} {a b a' : Kernel Seqs}

theorem before (hr : ∀ t ∈ a.mem .ready, t ∈ b.mem .ready)
    (hs : ∀ s, u ≠ some s → b.mem (.sema s) = a.mem (.sema s)) (h : Flow u b a') : Flow u a a' where
  ready t ht := h.ready t (hr t ht)
  sema s hne := (h.sema s hne).trans (hs s hne)

/-- No switch. -/
theorem stay (hr : ∀ t ∈ a.mem .ready, t ∈ a'.mem .ready)
    (hs : ∀ s, u ≠ some s → a'.mem (.sema s) = a.mem (.sema s)) : Flow u a a' where
  ready t ht := .inr (hr t ht)
  sema := hs

theorem of_mem (hm : a'.mem = a.mem) : Flow u a a' :=
  .stay (fun t ht => hm ▸ ht) fun s _ => by rw [hm]

theorem scheduleNext (h : a.scheduleNext = some a') : Flow u a a' := by
  rcases scheduleNext_cases h with ⟨-, -, hm⟩ | ⟨t, ts, hx, hr, hm⟩
  · exact .of_mem hm
  · refine ⟨fun v hv => ?_, fun s _ => ?_⟩
    · rw [hx, List.mem_cons] at hv
      rw [hr, hm, Function.update_self]
      exact hv
    · rw [hm]
      exact Function.update_of_ne (by simp) _ _

theorem mem_push_self (q : Seqs) (l : Queue) (t : ℕ) : t ∈ pushBack q l (.node t) l := mem_push.mpr (.inr ⟨rfl, rfl⟩)

theorem push_ready_sema (q : Seqs) (t : ℕ) (s : Sema) : pushBack q .ready (.node t) (.sema s) = q (.sema s) :=
  Function.update_of_ne (by simp) _ _

theorem yieldCurrent (h : a.yieldCurrent = some a') : Flow u a a' := by
  unfold Kernel.yieldCurrent at h
  split_ifs at h
  · refine .before (fun t ht => ?_) (fun s _ => ?_) (.scheduleNext h)
    · exact mem_push.mpr (.inl ht)
    · exact push_ready_sema a.mem a.running s
  · exact .scheduleNext h

/-- A thread that yields and is not blocked is ready, or runs on. -/
theorem yieldCurrent_self (hb : a.status a.running ≠ .blocked) (h : a.yieldCurrent = some a') :
    a.running = a'.running ∨ a.running ∈ a'.mem .ready := by
  unfold Kernel.yieldCurrent at h
  rw [if_pos hb] at h
  exact (scheduleNext (u := none) h).ready _ (mem_push_self _ _ _)

theorem blockCurrent (h : a.blockCurrent = some a') : Flow u a a' := by
  rw [blockCurrent_eq] at h
  obtain ⟨hr, hs⟩ := scheduleNext (u := u) h
  exact ⟨hr, hs⟩

theorem exitThread (h : a.exitThread = some a') : Flow u a a' := by
  obtain ⟨hr, hs⟩ := scheduleNext (u := u) h
  exact ⟨hr, hs⟩

theorem threadUnblock (a : Kernel Seqs) (thr : ℕ) : Flow u a (a.threadUnblock thr) := by
  rw [threadUnblock_eq]
  refine .stay (fun t ht => ?_) fun s _ => ?_
  · show t ∈ (if _ then _ else _ : Seqs) .ready
    split_ifs
    · exact mem_push.mpr (.inl ht)
    · exact ht
  · show (if _ then _ else _ : Seqs) (.sema s) = _
    split_ifs
    · exact push_ready_sema a.mem thr s
    · rfl

theorem decLoop {s : Sema} {value : ℕ} {old : InterruptLevel} (h : a.decLoop s value old = some a') :
    Flow (some s) a a' := by
  unfold Kernel.decLoop at h
  split_ifs at h
  · refine .before (fun t ht => ?_) (fun s' hne => ?_) (.blockCurrent h)
    · exact mem_push.mpr (.inl ht)
    · refine Function.update_of_ne ?_ _ _
      intro he
      exact hne (congrArg some (Queue.sema.inj he).symm)
  · cases h
    exact .of_mem rfl

theorem wakeWaiter {s : Sema} (h : a.wakeWaiter s = some a') : Flow (some s) a a' := by
  unfold Kernel.wakeWaiter at h
  split_ifs at h with he
  · cases h
    exact .of_mem rfl
  · obtain ⟨w, ws, hx⟩ := List.exists_cons_of_ne_nil fun hx => he (List.isEmpty_iff.mpr hx)
    rw [popFront_cons hx] at h
    cases h
    refine .before (b := { a with mem := Function.update a.mem (.sema s) ws }) (fun t ht => ?_) (fun s' hs' => ?_)
      (.threadUnblock _ w)
    · show t ∈ Function.update a.mem (.sema s) ws .ready
      rw [Function.update_of_ne (by simp)]
      exact ht
    · refine Function.update_of_ne ?_ _ _
      intro he
      exact hs' (congrArg some (Queue.sema.inj he).symm)

theorem semaphoreInc {s : Sema} (h : a.semaphoreInc s = some a') : Flow (some s) a a' := by
  obtain ⟨a₁, h₁, rfl⟩ := Option.map_eq_some_iff.mp h
  obtain ⟨hr, hs⟩ := wakeWaiter h₁
  exact ⟨hr, hs⟩

/-- `condvar_signal` moves the first waiter to the ready list. -/
theorem signalMove {c : ℕ} {xs : List Stmt} (h : (a.pop xs).exec (.signalMove c) = some a') :
    Flow none (a.pop xs) a' := by
  cases h
  have hkeep : ∀ l, l ≠ .cond c → (popFront a.mem (.cond c)).1 l = a.mem l := fun l hl => Function.update_of_ne hl _ _
  have hpush : ∀ (q : Seqs) (el : Elem Queue ℕ) (t : ℕ), t ∈ q .ready → t ∈ pushBack q .ready el .ready := by
    intro q el t ht
    cases el with
    | node v => exact mem_push.mpr (.inl ht)
    | _ => exact ht
  have hsema : ∀ (q : Seqs) (el : Elem Queue ℕ) (s : Sema), pushBack q .ready el (.sema s) = q (.sema s) := by
    intro q el s
    cases el with
    | node v => exact push_ready_sema q v s
    | _ => rfl
  refine .stay (fun t ht => hpush _ _ t ?_) fun s _ => (hsema _ _ s).trans ?_
  · show t ∈ (popFront a.mem (.cond c)).1 .ready
    rw [hkeep _ (by simp)]
    exact ht
  · exact hkeep _ (by simp)

/-- What a statement does to the lists, when it blocks no other thread. -/
theorem exec {stmt : Stmt} {xs : List Stmt} (hb : ∀ thr, stmt = .threadBlock thr → thr = a.running)
    (h : (a.pop xs).exec stmt = some a') : Flow stmt.sema? a a' := by
  suffices hf : Flow stmt.sema? (a.pop xs) a' from ⟨hf.ready, hf.sema⟩
  cases stmt with
  | yieldCurrent => exact .yieldCurrent h
  | blockCurrent => exact .blockCurrent h
  | waitBlock c => exact .blockCurrent h
  | exitThread => exact .exitThread h
  | threadBlock thr =>
      have ht : thr = (a.pop xs).running := hb thr rfl
      have h' : (a.pop xs).threadBlock thr = some a' := h
      unfold Kernel.threadBlock at h'
      rw [if_pos ht] at h'
      exact .blockCurrent h'
  | threadUnblock thr =>
      cases h
      exact .threadUnblock _ thr
  | createThread =>
      cases h
      obtain ⟨hr, hs⟩ := threadUnblock (u := none) (a.pop xs).newThread (a.pop xs).nextTid
      exact ⟨hr, hs⟩
  | semaphoreInc s => exact .semaphoreInc h
  | semaphoreDec s =>
      obtain ⟨hr, hs⟩ := decLoop (a := (a.pop xs).disableInterrupts) h
      exact ⟨hr, hs⟩
  | decLoop s value old => exact .decLoop h
  | waitPush c =>
      cases h
      refine .stay (fun t ht => mem_push.mpr (.inl ht)) fun s _ => ?_
      show Function.update a.mem (.cond c) (a.mem (.cond c) ++ [a.running]) (.sema s) = _
      exact Function.update_of_ne (by simp) _ _
  | signalMove c => exact .signalMove h
  | signalAll c l =>
      have h' : (if isEmpty a.mem (.cond c) then a.pop xs
          else (a.pop xs).enter (condvarSignalOne c l ++ condvarSignalAll c l)) = a' := Option.some.inj h
      split_ifs at h' <;> subst h' <;> exact .of_mem rfl
  | _ =>
      cases h
      exact .of_mem rfl

end Flow

/-! ### Pending wakeups -/

/-- A thread in the loop of `semaphore_dec` runs the loop next, or returns from an interrupt. -/
theorem Formed.decLoop_head {stmt : Stmt} {xs : List Stmt} (h : Formed (stmt :: xs)) {s : Sema} {value : ℕ}
    {old : InterruptLevel} (hd : .decLoop s value old ∈ stmt :: xs) :
    (∃ old', stmt = .isrReturn old') ∨ stmt = .decLoop s value old := by
  have hacq : ∀ {l : ℕ} {ys : List Stmt}, AfterAcquire l ys → .decLoop s value old ∉ ys := by
    intro l ys hy
    cases hy <;> simp [condvarSignalAll]
  have hrel : ∀ {l : ℕ} {ys : List Stmt}, AfterRelease l ys → .decLoop s value old ∉ ys := by
    intro l ys hy
    cases hy with
    | done => simp
    | wait c => simp [lockAcquire]
    | signal c hx => simp [lockAcquire, hacq hx]
  cases h with
  | single _ => exact .inr (List.mem_singleton.mp hd).symm
  | isr old' _ => exact .inl ⟨old', rfl⟩
  | acquire hx => exact absurd hd (by simp [hacq hx])
  | acquireLoop old' hx =>
      simp only [List.mem_cons, reduceCtorEq, hacq hx, or_false] at hd
      exact .inr hd.symm
  | acquired hx => exact absurd hd (by simp [hacq hx])
  | release hx => exact absurd hd (by simp [hrel hx])
  | released hx => exact absurd hd (by simp [hrel hx])
  | push c l => exact absurd hd (by simp [lockAcquire])
  | block c l => exact absurd hd (by simp [lockAcquire])
  | move c hx => exact absurd hd (by simp [lockAcquire, hacq hx])

namespace WakeupPending
open Kernel
variable {a a' : Kernel Seqs} {s : Sema}

/-- No more units than before, the same waiters, and who was woken still is. -/
theorem keep (h : WakeupPending a s) (hv : a'.value s ≤ a.value s) (hw : a'.mem (.sema s) = a.mem (.sema s))
    (hr : ∀ t, (t = a.running ∨ t ∈ a.mem .ready) → (∃ value old, .decLoop s value old ∈ a.cont t) →
      (t = a'.running ∨ t ∈ a'.mem .ready) ∧ ∃ value old, .decLoop s value old ∈ a'.cont t) :
    WakeupPending a' s := by
  intro hpos hne
  have hne' : a.mem (.sema s) ≠ [] := by
    rw [← hw]
    exact hne
  obtain ⟨t, ht, hoff, hd⟩ := h (Nat.lt_of_lt_of_le hpos hv) hne'
  obtain ⟨ht', hd'⟩ := hr t ht hd
  refine ⟨t, ht', ?_, hd'⟩
  show t ∉ a'.mem (.sema s)
  rw [hw]
  exact hoff

theorem of_zero (h : a'.value s = 0) : WakeupPending a' s := fun hpos => absurd h (Nat.ne_of_gt hpos)

/-- The first that waits goes to the ready list. -/
theorem wake (hp : Placed a) (hi : IdleQuiet a) (hw : a.wakeWaiter s = some a') :
    a'.mem (.sema s) = [] ∨ ∃ w ∈ a'.mem .ready, Woken a' s w := by
  unfold wakeWaiter at hw
  split_ifs at hw with he
  · cases hw
    exact .inl (List.isEmpty_iff.mp he)
  · obtain ⟨w, ws, hx⟩ := List.exists_cons_of_ne_nil fun hx => he (List.isEmpty_iff.mpr hx)
    obtain ⟨-, old, xs, hc⟩ := (hp.others w (hp.waiter_ne hx)).sema s (hx ▸ List.mem_cons_self)
    have hidle : w ≠ a.idle := by
      intro hw
      apply hi.not_mem (x := .decLoop s 0 old) (by simp) (by simp)
      rw [← hw, hc]
      exact List.mem_cons_self
    rw [popFront_cons hx] at hw
    have hm : a'.mem = pushBack (Function.update a.mem (.sema s) ws) .ready (.node w) := by
      cases hw
      exact threadUnblock_mem { a with mem := Function.update a.mem (.sema s) ws } hidle
    refine .inr ⟨w, ?_, ?_, 0, old, ?_⟩
    · rw [hm]
      exact Flow.mem_push_self _ _ _
    · show w ∉ a'.mem (.sema s)
      rw [hm, Flow.push_ready_sema]
      exact (hp.queues.pop hx).2.1 _
    · cases hw
      rw [(threadUnblock_frame _ w).1.cont]
      show _ ∈ a.cont w
      rw [hc]
      exact List.mem_cons_self

theorem of_inc (hp : Placed a) (hi : IdleQuiet a) (hinc : a.semaphoreInc s = some a') : WakeupPending a' s := by
  obtain ⟨a₁, h₁, rfl⟩ := Option.map_eq_some_iff.mp hinc
  intro _ hne
  have hp' : Placed { a.disableInterrupts with value := Function.update a.value s ((a.value s + 1) % 2 ^ 64) } :=
    hp.congr rfl rfl rfl rfl rfl (fun _ _ => rfl) fun _ _ _ => id
  rcases wake hp' ⟨hi.cont⟩ h₁ with hnil | ⟨w, hr, hw⟩
  · exact absurd hnil hne
  · exact ⟨w, .inr hr, hw⟩

/-- What one statement does to a pending wakeup. -/
theorem exec (h : WakeupPending a s) (hi : Inv a) {stmt : Stmt} {xs : List Stmt} (hc : a.cont a.running = stmt :: xs)
    (hb : ∀ thr, stmt = .threadBlock thr → thr = a.running) (hd : ∀ value old, stmt = .decLoop s value old → a.value s = 0)
    (he : Effect a stmt xs a') (hs : (a.pop xs).exec stmt = some a') : WakeupPending a' s := by
  have hform : Formed (stmt :: xs) := hc ▸ hi.sane.formed a.running
  have hflow := Flow.exec hb hs
  by_cases hinc : stmt = .semaphoreInc s
  · subst hinc
    exact of_inc (hi.placed_pop hc (by simp)) (hi.idleQuiet_pop hc) hs
  by_cases hzero : a'.value s = 0
  · exact of_zero hzero
  -- a thread that finds the value zero leaves it zero
  have hloop : ∀ value old, stmt ≠ .decLoop s value old := by
    intro value old hst
    apply hzero
    have hv : value = 0 := by
      subst hst
      cases hform with
      | acquireLoop _ _ => rfl
      | single hx =>
          cases s with
          | sem i => exact hx
          | binary l => exact hx.elim
    rw [he.value, hst, hv]
    exact hd value old hst
  have hle : a'.value s ≤ a.value s := by
    rw [he.value]
    cases stmt with
    | semaphoreInc s' =>
        have hne : s ≠ s' := fun hs' => hinc (by rw [hs'])
        exact (Function.update_of_ne hne _ _ : valueAfter a (.semaphoreInc s') s = _).le
    | semaphoreDec s' =>
        show (if a.value s' = 0 then a.value else Function.update a.value s' (a.value s' - 1)) s ≤ _
        split_ifs
        · exact Nat.le_refl _
        · by_cases hs' : s = s'
          · rw [hs', Function.update_self]
            exact Nat.sub_le _ _
          · rw [Function.update_of_ne hs']
    | decLoop s' value old =>
        have hne : s ≠ s' := fun hs' => hloop value old (by rw [hs'])
        show (if value = 0 then a.value else Function.update a.value s' (value - 1)) s ≤ _
        split_ifs
        · exact Nat.le_refl _
        · rw [Function.update_of_ne hne]
    | _ => exact Nat.le_refl _
  have hw : a'.mem (.sema s) = a.mem (.sema s) := by
    by_cases hst : stmt.sema? = some s
    · cases stmt with
      | semaphoreInc s' => exact absurd (congrArg Stmt.semaphoreInc (Option.some.inj hst)) hinc
      | decLoop s' value old => exact absurd (by rw [Option.some.inj hst]) (hloop value old)
      | semaphoreDec s' =>
          have hs' : s' = s := Option.some.inj hst
          subst hs'
          have hv : a.value s' ≠ 0 := by
            intro hv
            apply hzero
            rw [he.value, show a.valueAfter (.semaphoreDec s') = a.value from if_pos hv]
            exact hv
          have hdec : ((a.pop xs).disableInterrupts).decLoop s' (a.value s') a.level = some a' := hs
          unfold decLoop at hdec
          rw [if_neg hv] at hdec
          cases hdec
          rfl
      | _ => cases hst
    · exact hflow.sema s hst
  refine h.keep hle hw fun t ht ⟨value, old, hmem⟩ => ?_
  by_cases htr : t = a.running
  · -- the running thread returns from an interrupt, and goes on
    rw [htr, hc] at hmem
    obtain ⟨old', rfl⟩ := (hform.decLoop_head hmem).resolve_right (hloop value old)
    have hxs : .decLoop s value old ∈ xs := by simpa using hmem
    rw [htr]
    refine ⟨.inl ?_, value, old, ?_⟩
    · cases hs
      rfl
    · rw [he.self]
      exact hxs
  · have htr' : t ∈ a.mem .ready := ht.resolve_left htr
    refine ⟨hflow.ready t htr', value, old, ?_⟩
    rcases he.others t htr with hcont | ⟨hn, -⟩
    · rw [hcont]
      exact hmem
    · exact absurd (hi.exist _ t htr') (hn ▸ Nat.lt_irrefl _)

/-- **One step** keeps wakeups pending when no woken thread resumes with units left. -/
theorem step (h : WakeupPending a s) (hi : Inv a) {act : Action} (hok : TakesNothing s a act)
    (hs : a.step act = some a') : WakeupPending a' s := by
  cases act with
  | call op =>
      obtain ⟨-, hc, rfl⟩ := step_call hs
      refine h.keep (Nat.le_refl _) rfl fun t ht ⟨value, old, hmem⟩ => ⟨ht, value, old, ?_⟩
      have htr : t ≠ a.running := by
        intro htr
        rw [htr, hc] at hmem
        exact absurd hmem List.not_mem_nil
      rw [enter_others _ _ htr]
      exact hmem
  | run =>
      obtain ⟨stmt, xs, hc, he, hex⟩ := run_effect hi.sane hs
      have hn : a.next? = some stmt := next?_of_cont hc
      obtain ⟨hb, hd⟩ := hok.2 rfl
      refine h.exec hi hc (fun thr hst => hb thr (hst ▸ hn)) (fun value old hst => hd value old (hst ▸ hn)) he hex
  | interrupt =>
      have hy := (step_interrupt hs).2
      have hsw := yieldCurrent_switch hy
      have hflow : Flow none (a.disableInterrupts.enter [.isrReturn a.level]) a' := .yieldCurrent hy
      refine h.keep (congrFun hsw.value s).le (hflow.sema s (by simp)) fun t ht ⟨value, old, hmem⟩ => ⟨?_, value, old, ?_⟩
      · rcases ht with rfl | ht
        · -- a thread that was woken is not blocked
          have hst := hi.awake s value old hmem
          exact Flow.yieldCurrent_self (a := a.disableInterrupts.enter [.isrReturn a.level]) hst hy
        · exact hflow.ready t ht
      · rw [hsw.cont]
        by_cases htr : t = a.running
        · subst htr
          exact enter_self a.disableInterrupts _ ▸ List.mem_append_right _ hmem
        · rw [show (a.disableInterrupts.enter _).cont t = a.cont t from enter_others a.disableInterrupts _ htr]
          exact hmem

end WakeupPending

/-! ### Reachable states -/

theorem TakesNothing.refines {k : Kernel (ListMem Queue ℕ)} {a : Kernel Seqs} (h : Refines k a) {s : Sema} {act : Action}
    (hok : TakesNothing s k act) : TakesNothing s a act := by
  obtain ⟨hp, hrun⟩ := hok
  refine ⟨h.proper hp, fun hact => ?_⟩
  obtain ⟨hb, hd⟩ := hrun hact
  rw [h.next?, h.threads] at hb hd
  exact ⟨hb, hd⟩

theorem WakeupPending.of_refines {k : Kernel (ListMem Queue ℕ)} {a : Kernel Seqs} (h : Refines k a) {s : Sema}
    (hp : WakeupPending a s) : WakeupPending k s := by
  have hm : ∀ l, members k.mem l = members a.mem l := members_eq h.mem
  unfold WakeupPending Woken at hp ⊢
  simp only [hm, h.threads]
  exact hp

/-- **No lost wakeup**, in runs in which no woken thread resumes while there are units: if there are units
and waiters, then a thread that was woken is running or ready. -/
theorem semaphore_no_lost_wakeup {mem : ListMem Queue ℕ} (h₀ : ∀ l, Initialised mem l ∨ ZeroFilled mem l)
    {value : ℕ → ℕ} {level : InterruptLevel} {intr : Bool} {s : Sema} {k : Kernel (ListMem Queue ℕ)}
    (h : Transition.Reach Kernel.step (TakesNothing s) (initThreads mem value level intr) k) : WakeupPending k s := by
  have hinv : ∃ a, Refines k a ∧ Inv a ∧ WakeupPending a s := by
    refine h.invariant (I := fun k => ∃ a, Refines k a ∧ Inv a ∧ WakeupPending a s) ?_ ?_
    · obtain ⟨a, hr, hi⟩ := initThreads_followed value level intr (.of_fresh h₀)
      refine ⟨a, hr, hi, fun _ hne => ?_⟩
      refine absurd ?_ hne
      show a.mem (.sema s) = []
      rw [← members_eq hr.mem, Kernel.initThreads_mem]
      exact members_eq (.of_fresh h₀) _
    · intro k act k' ⟨a, hr, hi, hp⟩ hok hs
      obtain ⟨a', ha, hr', hi'⟩ := hr.follow hi hok.1 hs
      exact ⟨a', hr', hi', hp.step hi (hok.refines hr) ha⟩
  obtain ⟨a, hr, -, hp⟩ := hinv
  exact hp.of_refines hr

/-- The next statement is no loop of `semaphore_dec`. -/
def Kernel.NoLoop {M : Type} (k : Kernel M) : Bool :=
  match k.next? with
  | some (.decLoop _ _ _) => false
  | _ => true

/-- Threads `0` and `2` sleep; thread `3` wakes the first. -/
theorem semaphore_no_lost_wakeup_two :
    let mem : ListMem Queue ℕ := ⟨fun _ => .null, fun _ => .null, fun _ => 0⟩
    ∃ k, Transition.runs Kernel.step (fun k act => k.Plain act = true ∧ k.NoLoop = true)
        (initThreads mem (fun _ => 0) .enabled true)
        [.call .createThread, .run, .call .createThread, .run, .call (.semaphoreDec 0), .run, .run,
          .call (.semaphoreDec 0), .run, .run, .call (.semaphoreInc 0), .run] = some k ∧
      WakeupPending k (.sem 0) ∧ k.value (.sem 0) = 1 ∧ members k.mem (.sema (.sem 0)) = [2] := by
  intro mem
  have hrun : (Transition.runs Kernel.step (fun k act => k.Plain act = true ∧ k.NoLoop = true)
      (initThreads mem (fun _ => 0) .enabled true)
      [.call .createThread, .run, .call .createThread, .run, .call (.semaphoreDec 0), .run, .run,
        .call (.semaphoreDec 0), .run, .run, .call (.semaphoreInc 0), .run]).map
      (fun k => (k.value (.sem 0), members k.mem (.sema (.sem 0)))) = some (1, [2]) := by
    decide +kernel
  obtain ⟨k, hs, he⟩ := Option.map_eq_some_iff.mp hrun
  simp only [Prod.mk.injEq] at he
  have hreach : Transition.Reach Kernel.step (TakesNothing (.sem 0)) (initThreads mem (fun _ => 0) .enabled true) k := by
    refine (Transition.Reach.of_runs hs).mono fun k act ⟨hplain, hloop⟩ => ⟨Kernel.Plain.proper hplain, fun hact => ⟨?_, ?_⟩⟩
    · exact fun thr hn => absurd hn (Kernel.Plain.no_threadBlock (hact ▸ hplain) thr)
    · intro value old hn
      unfold Kernel.NoLoop at hloop
      rw [hn] at hloop
      cases hloop
  exact ⟨k, hs, semaphore_no_lost_wakeup (fun l => .inr ⟨rfl, rfl, rfl, rfl, rfl⟩) hreach, he⟩

/-- Thread `0` sleeps, thread `2` increments the semaphore and yields, and thread `0` sleeps again. -/
theorem semaphore_wakeup_lost :
    let mem : ListMem Queue ℕ := ⟨fun _ => .null, fun _ => .null, fun _ => 0⟩
    ∃ k, Transition.Reach Kernel.step Kernel.Proper (initThreads mem (fun _ => 0) .enabled true) k ∧
      ¬ WakeupPending k (.sem 0) := by
  intro mem
  have hrun : (Transition.runs Kernel.step (fun k act => k.Plain act = true)
      (initThreads mem (fun _ => 0) .enabled true)
      [.call .createThread, .run, .call (.semaphoreDec 0), .run, .run, .call (.semaphoreInc 0), .run,
        .call .yieldCurrent, .run, .run]).map
      (fun k => (k.value (.sem 0), members k.mem (.sema (.sem 0)), members k.mem .ready, k.running, k.cont 2)) =
      some (1, [0], [], 2, []) := by
    decide +kernel
  obtain ⟨k, hs, he⟩ := Option.map_eq_some_iff.mp hrun
  simp only [Prod.mk.injEq] at he
  obtain ⟨hv, hw, hready, hr, hc⟩ := he
  refine ⟨k, (Transition.Reach.of_runs hs).mono fun _ _ hok => Kernel.Plain.proper hok, fun hp => ?_⟩
  obtain ⟨t, ht, -, value, old, hd⟩ := hp (by rw [hv]; decide) (by rw [hw]; decide)
  rw [hready, hr] at ht
  rw [ht.resolve_right List.not_mem_nil, hc] at hd
  exact absurd hd List.not_mem_nil

end Dunkos
