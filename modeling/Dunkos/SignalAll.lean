import Dunkos.Condvar

/-! # Signals to all that wait (`condvar_signal_all`)

The loop of `condvar_signal_all` asks each time whether the list of waiters is empty, and releases the lock in its body.
`SignalCall` follows one call through any run of the kernel, and keeps apart the threads that waited when it was made and
those that came since.  `condvar_signal_all_iff` says in which runs it wakes exactly the first ones. -/

namespace Dunkos

open ThreadQueues Transition

/-- A call of `condvar_signal_all`.  `waiters` are the threads on the list when it was made, and `left` those of them that
have been there since; `woken` of these and `later` of the others are what the call has made ready, and `rounds` how often
its loop has gone on. -/
structure SignalCall (M : Type) where
  kernel : Kernel M
  waiters : List ℕ
  left : List ℕ
  woken : List ℕ
  later : List ℕ
  rounds : ℕ

namespace SignalCall
variable {M : Type} [ThreadQueues M]

/-- Behind the call. -/
def start (k : Kernel M) (c : ℕ) : SignalCall M where
  kernel := k
  waiters := members k.mem (.cond c)
  left := members k.mem (.cond c)
  woken := []
  later := []
  rounds := 0

/-- What is popped off the list of `c` by a step. -/
def popped (s : SignalCall M) (c : ℕ) (act : Action) : List ℕ :=
  if act = .run ∧ s.kernel.next? = some (.signalMove c) then (members s.kernel.mem (.cond c)).head?.toList else []

/-- A step of the kernel, and what it means for the call of `caller`. -/
def step (caller c l : ℕ) (s : SignalCall M) (act : Action) : Option (SignalCall M) :=
  (s.kernel.step act).map fun k =>
    let own := s.kernel.running = caller
    { s with
      kernel := k
      left := s.left.drop (s.popped c act).length
      woken := if own ∧ s.left ≠ [] then s.woken ++ s.popped c act else s.woken
      later := if own ∧ s.left = [] then s.later ++ s.popped c act else s.later
      rounds :=
        if own ∧ act = .run ∧ s.kernel.next? = some (.signalAll c l) ∧ members s.kernel.mem (.cond c) ≠ [] then s.rounds + 1
        else s.rounds }

/-- The call has not returned. -/
def InCall (caller c l : ℕ) (s : SignalCall M) : Prop := .signalAll c l ∈ s.kernel.cont caller

/-- Proper use, while the call goes on. -/
def Ok (caller c l : ℕ) (s : SignalCall M) (act : Action) : Prop := s.kernel.Proper act ∧ s.InCall caller c l

/-- The loop finds only threads on the list that came there since the call, or another thread takes one of the waiters. -/
def Disturbs (caller c l : ℕ) (s : SignalCall M) (act : Action) : Prop :=
  act = .run ∧
    (s.kernel.running = caller ∧ s.kernel.next? = some (.signalAll c l) ∧ s.left = [] ∧ members s.kernel.mem (.cond c) ≠ [] ∨
      s.kernel.running ≠ caller ∧ s.kernel.next? = some (.signalMove c) ∧ s.left ≠ [])

instance (caller c l : ℕ) (s : SignalCall M) (act : Action) : Decidable (s.Disturbs caller c l act) :=
  inferInstanceAs (Decidable (_ ∧ _))

end SignalCall

/-! ### What it is for -/

/-- The threads that waited at the call have been made ready, each once, or still wait; no other one has; and the loop has
gone on at most once for each.  In the end none of them waits. -/
structure SignalsAll (caller c l : ℕ) {M : Type} (s : SignalCall M) : Prop where
  woken : s.woken ++ s.left = s.waiters
  once : s.waiters.Nodup
  later : s.later = []
  rounds : s.rounds ≤ s.waiters.length
  done : ¬ s.InCall caller c l → s.left = []

/-! ### Lists of waiters -/

/-- The list of waiters of `c` after a step. -/
def condAfter {M : Type} [ThreadQueues M] (k : Kernel M) (act : Action) (c : ℕ) : List ℕ :=
  if act = .run ∧ k.next? = some (.waitPush c) then members k.mem (.cond c) ++ [k.running]
  else if act = .run ∧ k.next? = some (.signalMove c) then (members k.mem (.cond c)).tail
  else members k.mem (.cond c)

namespace Kernel
variable {a b a' : Kernel Seqs} {c : ℕ}

/-- The step leaves the list of waiters alone. -/
abbrev CondKept (c : ℕ) (a a' : Kernel Seqs) : Prop := a'.mem (.cond c) = a.mem (.cond c)

theorem pushBack_ne (q : Seqs) {l l' : Queue} (h : l' ≠ l) (t : ℕ) : pushBack q l (.node t) l' = q l' :=
  Function.update_of_ne h _ _

theorem scheduleNext_cond (h : a.scheduleNext = some a') : CondKept c a a' := by
  rcases scheduleNext_cases h with ⟨-, -, hm⟩ | ⟨t, ts, -, -, hm⟩
  · rw [CondKept, hm]
  · rw [CondKept, hm]
    exact Function.update_of_ne (by simp) _ _

theorem yieldCurrent_cond (h : a.yieldCurrent = some a') : CondKept c a a' := by
  unfold yieldCurrent at h
  split_ifs at h
  · exact (scheduleNext_cond h).trans (pushBack_ne _ (by simp) _)
  · exact scheduleNext_cond h

theorem blockCurrent_cond (h : a.blockCurrent = some a') : CondKept c a a' := by
  rw [blockCurrent_eq] at h
  have hk := scheduleNext_cond (c := c) h
  exact hk

theorem threadUnblock_cond (a : Kernel Seqs) (thr : ℕ) : CondKept c a (a.threadUnblock thr) := by
  rw [threadUnblock_eq]
  show (if _ then _ else _ : Seqs) (.cond c) = _
  split_ifs
  · exact pushBack_ne _ (by simp) _
  · rfl

theorem decLoop_cond {s : Sema} {value : ℕ} {old : InterruptLevel} (h : a.decLoop s value old = some a') :
    CondKept c a a' := by
  unfold decLoop at h
  split_ifs at h
  · have hk := blockCurrent_cond (c := c) h
    exact hk.trans (pushBack_ne a.mem (by simp) _)
  · cases h
    rfl

theorem wakeWaiter_cond {s : Sema} (h : a.wakeWaiter s = some a') : CondKept c a a' := by
  unfold wakeWaiter at h
  split_ifs at h with he
  · cases h
    rfl
  · obtain ⟨w, ws, hx⟩ := List.exists_cons_of_ne_nil fun hx => he (List.isEmpty_iff.mpr hx)
    rw [popFront_cons hx] at h
    cases h
    have hother : Function.update a.mem (.sema s) ws (.cond c) = a.mem (.cond c) := Function.update_of_ne (by simp) _ _
    have hk := threadUnblock_cond (c := c) { a with mem := Function.update a.mem (.sema s) ws } w
    exact hk.trans hother

theorem semaphoreInc_cond {s : Sema} (h : a.semaphoreInc s = some a') : CondKept c a a' := by
  obtain ⟨a₁, h₁, rfl⟩ := Option.map_eq_some_iff.mp h
  have hk := wakeWaiter_cond (c := c) h₁
  exact hk

/-- The first of another list becomes ready. -/
theorem signalMove_cond {c' : ℕ} (hne : c' ≠ c) (h : a.exec (.signalMove c') = some a') :
    CondKept c a a' := by
  have hpop : (popFront a.mem (.cond c')).1 (.cond c) = a.mem (.cond c) :=
    Function.update_of_ne (by simp [hne.symm]) _ _
  have hpush : ∀ (q : Seqs) (el : Elem Queue ℕ), pushBack q .ready el (.cond c) = q (.cond c) := by
    intro q el
    cases el with
    | node t => exact pushBack_ne q (by simp) t
    | _ => rfl
  cases h
  exact (hpush _ _).trans hpop

/-- **One statement**: only `condvar_wait` and `condvar_signal_one` change the list. -/
theorem exec_cond {stmt : Stmt} {xs : List Stmt} (hs : (a.pop xs).exec stmt = some a') (hpush : stmt ≠ .waitPush c)
    (hmove : stmt ≠ .signalMove c) : CondKept c a a' := by
  suffices hk : CondKept c (a.pop xs) a' from hk
  cases stmt with
  | yieldCurrent => exact yieldCurrent_cond hs
  | blockCurrent => exact blockCurrent_cond hs
  | waitBlock c' => exact blockCurrent_cond hs
  | exitThread =>
      have hk := scheduleNext_cond (c := c) hs
      exact hk
  | threadBlock thr =>
      have hs' : (a.pop xs).threadBlock thr = some a' := hs
      unfold threadBlock at hs'
      split_ifs at hs'
      · exact blockCurrent_cond hs'
      · cases hs'
        show remove a.mem .ready (.node thr) (.cond c) = a.mem (.cond c)
        exact Function.update_of_ne (by simp) _ _
  | threadUnblock thr =>
      cases hs
      exact threadUnblock_cond _ thr
  | createThread =>
      cases hs
      have hk := threadUnblock_cond (c := c) (a.pop xs).newThread (a.pop xs).nextTid
      exact hk
  | semaphoreInc s => exact semaphoreInc_cond hs
  | semaphoreDec s =>
      have hk := decLoop_cond (c := c) hs
      exact hk
  | decLoop s value old => exact decLoop_cond hs
  | waitPush c' =>
      have hne : c ≠ c' := fun he => hpush (he ▸ rfl)
      cases hs
      exact pushBack_ne a.mem (by simp [hne]) _
  | signalMove c' => exact signalMove_cond (fun he => hmove (he ▸ rfl)) hs
  | signalAll c' l =>
      have hs' : (if isEmpty a.mem (.cond c') then a.pop xs
          else (a.pop xs).enter (condvarSignalOne c' l ++ condvarSignalAll c' l)) = a' := Option.some.inj hs
      split_ifs at hs' <;> subst hs' <;> rfl
  | _ =>
      cases hs
      rfl

/-- **One step** of proper use. -/
theorem step_cond {act : Action} (hi : Inv a) (hok : a.Proper act) (hs : a.step act = some a') (c : ℕ) :
    a'.mem (.cond c) = condAfter a act c := by
  unfold condAfter
  cases act with
  | call op =>
      obtain ⟨-, -, rfl⟩ := step_call hs
      simp [enter]
      rfl
  | interrupt =>
      have hk := yieldCurrent_cond (c := c) (step_interrupt hs).2
      rw [if_neg (by simp), if_neg (by simp)]
      exact hk
  | run =>
      obtain ⟨stmt, xs, hc, -, hex⟩ := run_effect hi.sane hs
      have hn : a.next? = some stmt := next?_of_cont hc
      simp only [hn, true_and, Option.some.injEq]
      split_ifs with hpush hmove
      · subst hpush
        cases hex
        exact Function.update_self ..
      · subst hmove
        obtain ⟨w, hw⟩ := hi.signalled hok hn hs
        exact hw.waiters
      · exact exec_cond hex hpush hmove

end Kernel

/-- The list of waiters after a step, in a run. -/
theorem Followed.cond {k k' : Kernel (ListMem Queue ℕ)} (h : Followed k) {act : Action} (hok : k.Proper act)
    (hs : k.step act = some k') (c : ℕ) : members k'.mem (.cond c) = condAfter k act c := by
  obtain ⟨a, hr, hi⟩ := h
  obtain ⟨a', ha, hr', -⟩ := hr.follow hi hok hs
  have hm : ∀ l, members k.mem l = a.mem l := members_eq hr.mem
  rw [members_eq hr'.mem, Kernel.step_cond hi (hr.proper hok) ha c]
  unfold condAfter
  rw [hr.next?, hm, hr.threads]
  rfl

/-! ### A step of the call -/

theorem Followed.sane {k : Kernel (ListMem Queue ℕ)} (h : Followed k) : k.Sane := by
  obtain ⟨a, hr, hi⟩ := h
  exact hr.sane hi.sane

theorem Followed.isEmpty_iff {k : Kernel (ListMem Queue ℕ)} (h : Followed k) (q : Queue) :
    isEmpty k.mem q = true ↔ members k.mem q = [] := by
  obtain ⟨a, hr, -⟩ := h
  rw [isEmpty_eq hr.mem, members_eq hr.mem]
  exact List.isEmpty_iff

/-- The loop of `condvar_signal_all` is the last that a thread has to run. -/
theorem Formed.signalAll_eq {c l c' l' : ℕ} {xs : List Stmt} (h : Formed (.signalAll c' l' :: xs))
    (hm : .signalAll c l ∈ Stmt.signalAll c' l' :: xs) : c' = c ∧ l' = l ∧ xs = [] := by
  cases h with
  | single _ =>
      obtain ⟨rfl, rfl⟩ := Stmt.signalAll.inj (List.mem_singleton.mp hm)
      exact ⟨rfl, rfl, rfl⟩

/-- Apart from that loop, a statement leaves what stands behind it, or goes back to sleep in front of it. -/
theorem Kernel.contAfter_cases (k : Kernel (ListMem Queue ℕ)) {stmt : Stmt} (xs : List Stmt)
    (h : ¬ ∃ c l, stmt = .signalAll c l) :
    k.contAfter xs stmt = xs ∨ ∃ s value old, k.contAfter xs stmt = .decLoop s value old :: xs := by
  cases stmt with
  | semaphoreDec s =>
      by_cases hv : k.value s = 0
      · exact .inr ⟨s, 0, k.level, if_pos hv⟩
      · exact .inl (if_neg hv)
  | decLoop s value old =>
      by_cases hv : value = 0
      · exact .inr ⟨s, value, old, if_pos hv⟩
      · exact .inl (if_neg hv)
  | signalAll c l => exact absurd ⟨c, l, rfl⟩ h
  | _ => exact .inl rfl

namespace SignalCall
variable {caller c l : ℕ} {s t : SignalCall (ListMem Queue ℕ)} {act : Action}

/-- The signals that the caller has still to give in this round. -/
def pendingMoves (caller c : ℕ) (k : Kernel (ListMem Queue ℕ)) : ℕ := (k.cont caller).count (.signalMove c)

/-- What holds in every run of the call. -/
structure Tracked (caller c l : ℕ) (s : SignalCall (ListMem Queue ℕ)) : Prop where
  followed : Followed s.kernel
  exists_caller : caller < s.kernel.nextTid
  once : s.waiters.Nodup
  queue : ∃ news, members s.kernel.mem (.cond c) = s.left ++ news
  size : s.woken.length + s.left.length ≤ s.waiters.length
  round : s.InCall caller c l → s.rounds = s.woken.length + s.later.length + pendingMoves caller c s.kernel
  done : ¬ s.InCall caller c l → s.left = []

/-- What a step to the kernel `k` is for the call, and whether it disturbs. -/
inductive Change (caller c l : ℕ) (s : SignalCall (ListMem Queue ℕ)) (act : Action) (k : Kernel (ListMem Queue ℕ)) :
    SignalCall (ListMem Queue ℕ) → Prop
  | quiet (hd : ¬ s.Disturbs caller c l act) (hin : .signalAll c l ∈ k.cont caller)
      (hp : pendingMoves caller c k = pendingMoves caller c s.kernel) : Change caller c l s act k { s with kernel := k }
  | returns (hd : ¬ s.Disturbs caller c l act) (hout : .signalAll c l ∉ k.cont caller) (hnil : s.left = []) :
      Change caller c l s act k { s with kernel := k }
  | goesOn (hd : s.Disturbs caller c l act ↔ s.left = []) (hin : .signalAll c l ∈ k.cont caller)
      (hp : pendingMoves caller c s.kernel = 0 ∧ pendingMoves caller c k = 1) :
      Change caller c l s act k { s with kernel := k, rounds := s.rounds + 1 }
  | wakes {w : ℕ} {ws : List ℕ} (hd : ¬ s.Disturbs caller c l act) (hin : .signalAll c l ∈ k.cont caller)
      (hp : pendingMoves caller c s.kernel = pendingMoves caller c k + 1) (hleft : s.left = w :: ws) :
      Change caller c l s act k { s with kernel := k, left := ws, woken := s.woken ++ [w] }
  | wakesLater {w : ℕ} (hd : ¬ s.Disturbs caller c l act) (hin : .signalAll c l ∈ k.cont caller)
      (hp : pendingMoves caller c s.kernel = pendingMoves caller c k + 1) (hleft : s.left = []) :
      Change caller c l s act k { s with kernel := k, later := s.later ++ [w] }
  | taken {w : ℕ} {ws : List ℕ} (hd : s.Disturbs caller c l act) (hin : .signalAll c l ∈ k.cont caller)
      (hp : pendingMoves caller c k = pendingMoves caller c s.kernel) (hleft : s.left = w :: ws) :
      Change caller c l s act k { s with kernel := k, left := ws }

/-- A step that pops nothing and is not the loop of the call. -/
theorem step_of_quiet {k : Kernel (ListMem Queue ℕ)} (hpop : s.popped c act = [])
    (hloop : ¬ (s.kernel.running = caller ∧ act = .run ∧ s.kernel.next? = some (.signalAll c l) ∧
      members s.kernel.mem (.cond c) ≠ []))
    (hk : s.kernel.step act = some k) (ht : s.step caller c l act = some t) : t = { s with kernel := k } := by
  unfold step at ht
  rw [hk, Option.map_some, Option.some.injEq] at ht
  simp only [hpop, if_neg hloop, List.length_nil, List.drop_zero, List.append_nil, ite_self] at ht
  exact ht.symm

/-- A step that pops a thread. -/
theorem step_of_pop {w : ℕ} {k : Kernel (ListMem Queue ℕ)} (hn : s.kernel.next? = some (.signalMove c))
    (hpop : s.popped c act = [w]) (hk : s.kernel.step act = some k) (ht : s.step caller c l act = some t) :
    t = { s with
      kernel := k
      left := s.left.tail
      woken := if s.kernel.running = caller ∧ s.left ≠ [] then s.woken ++ [w] else s.woken
      later := if s.kernel.running = caller ∧ s.left = [] then s.later ++ [w] else s.later } := by
  unfold step at ht
  rw [hk, Option.map_some, Option.some.injEq] at ht
  simp only [hpop, hn, List.length_singleton, List.drop_one, Option.some.injEq, reduceCtorEq, false_and, and_false,
    if_false] at ht
  exact ht.symm

/-- A signal in proper use pops the first thread on the list. -/
theorem popped_eq (hok : s.kernel.Proper act) (hrun : act = .run) (hn : s.kernel.next? = some (.signalMove c)) :
    ∃ w ws, members s.kernel.mem (.cond c) = w :: ws ∧ s.popped c act = [w] := by
  subst hrun
  obtain ⟨w, ws, hx⟩ := List.exists_cons_of_ne_nil (hok _ hn : members s.kernel.mem (.cond c) ≠ [])
  refine ⟨w, ws, hx, ?_⟩
  unfold popped
  rw [if_pos ⟨rfl, hn⟩, hx]
  rfl

theorem not_disturbs (h : act ≠ .run) : ¬ s.Disturbs caller c l act := fun hd => h hd.1

/-- A step by another thread. -/
theorem Tracked.change_other (h : Tracked caller c l s) (hok : s.Ok caller c l act) (hne : s.kernel.running ≠ caller)
    {k : Kernel (ListMem Queue ℕ)} (hk : s.kernel.step act = some k) (ht : s.step caller c l act = some t) :
    Change caller c l s act k t := by
  have hcont : k.cont caller = s.kernel.cont caller := by
    cases act with
    | call op =>
        obtain ⟨-, -, rfl⟩ := Kernel.step_call hk
        exact Kernel.enter_others _ _ hne.symm
    | interrupt =>
        rw [(Kernel.yieldCurrent_switch (Kernel.step_interrupt hk).2).cont]
        exact Kernel.enter_others s.kernel.disableInterrupts _ hne.symm
    | run =>
        obtain ⟨stmt, xs, hc, he, -⟩ := Kernel.run_effect h.followed.sane hk
        exact (he.others caller hne.symm).resolve_right fun hnew => Nat.ne_of_lt h.exists_caller hnew.1
  have hin : .signalAll c l ∈ k.cont caller := hcont ▸ hok.2
  have hp : pendingMoves caller c k = pendingMoves caller c s.kernel := by
    unfold pendingMoves
    rw [hcont]
  have hloop : ∀ P : Prop, ¬ (s.kernel.running = caller ∧ P) := fun P hl => hne hl.1
  by_cases hmove : act = .run ∧ s.kernel.next? = some (.signalMove c)
  · obtain ⟨w, ws, hx, hpop⟩ := popped_eq hok.1 hmove.1 hmove.2
    obtain rfl := step_of_pop hmove.2 hpop hk ht
    simp only [if_neg (hloop _)]
    cases hleft : s.left with
    | nil =>
        have hd : ¬ s.Disturbs caller c l act := fun hd => hd.2.elim (fun hl => hne hl.1) fun hl => hl.2.2 hleft
        have hq := Change.quiet hd hin hp
        rw [hleft] at hq
        exact hq
    | cons v vs => exact .taken ⟨hmove.1, .inr ⟨hne, hmove.2, hleft ▸ List.cons_ne_nil _ _⟩⟩ hin hp hleft
  · have hpop : s.popped c act = [] := if_neg hmove
    obtain rfl := step_of_quiet hpop (hloop _) hk ht
    exact .quiet (fun hd => hd.2.elim (fun hl => hne hl.1) fun hl => hmove ⟨hd.1, hl.2.1⟩) hin hp

/-- The caller asks whether the list is empty. -/
theorem Tracked.change_loop (h : Tracked caller c l s) (hrun : s.kernel.running = caller)
    (hc : s.kernel.cont caller = [.signalAll c l]) {k : Kernel (ListMem Queue ℕ)} (hk : s.kernel.step .run = some k)
    (ht : s.step caller c l .run = some t) : Change caller c l s .run k t := by
  subst hrun
  have hn : s.kernel.next? = some (.signalAll c l) := Kernel.next?_of_cont hc
  have hpop : s.popped c .run = [] := by simp [popped, hn]
  obtain ⟨stmt, xs, hc', he, -⟩ := Kernel.run_effect h.followed.sane hk
  obtain ⟨rfl, rfl⟩ := List.cons.inj (hc.symm.trans hc')
  have hcont : k.cont s.kernel.running = if isEmpty s.kernel.mem (.cond c) then []
      else condvarSignalOne c l ++ condvarSignalAll c l ++ [] := he.self
  obtain ⟨news, hqueue⟩ := h.queue
  by_cases hempty : members s.kernel.mem (.cond c) = []
  · rw [if_pos ((h.followed.isEmpty_iff _).mpr hempty)] at hcont
    obtain rfl := step_of_quiet hpop (by simp [hempty]) hk ht
    rw [hempty] at hqueue
    have hleft : s.left = [] := (List.append_eq_nil_iff.mp hqueue.symm).1
    exact .returns (by simp [Disturbs, hn, hempty]) (by simp [hcont]) hleft
  · rw [if_neg fun he => hempty ((h.followed.isEmpty_iff _).mp he)] at hcont
    have ht' : t = { s with kernel := k, rounds := s.rounds + 1 } := by
      unfold step at ht
      rw [hk, Option.map_some, Option.some.injEq] at ht
      simp only [hpop, hn, hempty, ne_eq, not_false_eq_true, and_self, if_true, List.length_nil, List.drop_zero,
        List.append_nil, ite_self] at ht
      exact ht.symm
    subst ht'
    refine .goesOn (by simp [Disturbs, hn, hempty]) ?_ ⟨?_, ?_⟩
    · simp [hcont, condvarSignalAll]
    · simp [pendingMoves, hc]
    · simp [pendingMoves, hcont, condvarSignalOne, condvarSignalAll, lockRelease, lockAcquire]

/-- A step by the caller. -/
theorem Tracked.change_own (h : Tracked caller c l s) (hok : s.Ok caller c l act) (hrun : s.kernel.running = caller)
    {k : Kernel (ListMem Queue ℕ)} (hk : s.kernel.step act = some k) (ht : s.step caller c l act = some t) :
    Change caller c l s act k t := by
  have hin := hok.2
  unfold InCall at hin
  subst hrun
  cases act with
  | call op =>
      obtain ⟨-, hc, -⟩ := Kernel.step_call hk
      rw [hc] at hin
      cases hin
  | interrupt =>
      have hcont : k.cont s.kernel.running = .isrReturn s.kernel.level :: s.kernel.cont s.kernel.running := by
        rw [(Kernel.yieldCurrent_switch (Kernel.step_interrupt hk).2).cont]
        exact Kernel.enter_self s.kernel.disableInterrupts _
      obtain rfl := step_of_quiet (by simp [popped]) (by simp) hk ht
      refine .quiet (not_disturbs (by simp)) (hcont ▸ List.mem_cons_of_mem _ hin) ?_
      unfold pendingMoves
      rw [hcont, List.count_cons_of_ne (by simp)]
  | run =>
      obtain ⟨stmt, xs, hc, he, -⟩ := Kernel.run_effect h.followed.sane hk
      have hn : s.kernel.next? = some stmt := Kernel.next?_of_cont hc
      have hform : Formed (stmt :: xs) := hc ▸ h.followed.sane.formed s.kernel.running
      rw [hc] at hin
      by_cases hloop : ∃ c' l', stmt = .signalAll c' l'
      · obtain ⟨c', l', rfl⟩ := hloop
        obtain ⟨rfl, rfl, rfl⟩ := hform.signalAll_eq hin
        exact h.change_loop rfl hc hk ht
      · have hself : .signalAll c l ∈ xs := by
          refine (List.mem_cons.mp hin).resolve_left fun he => hloop ⟨c, l, he.symm⟩
        have hd : ¬ s.Disturbs s.kernel.running c l .run := by
          rintro ⟨-, ⟨-, hn', -⟩ | ⟨hne, -⟩⟩
          · exact hloop ⟨c, l, Option.some.inj (hn.symm.trans hn')⟩
          · exact hne rfl
        have hin' : .signalAll c l ∈ k.cont s.kernel.running := by
          rw [he.self]
          rcases s.kernel.contAfter_cases xs hloop with hx | ⟨x, value, old, hx⟩ <;> simp [hx, hself]
        have hcount : pendingMoves s.kernel.running c k = xs.count (.signalMove c) := by
          unfold pendingMoves
          rw [he.self]
          rcases s.kernel.contAfter_cases xs hloop with hx | ⟨x, value, old, hx⟩ <;> simp [hx]
        by_cases hmove : stmt = .signalMove c
        · subst hmove
          obtain ⟨w, ws, hx, hpop⟩ := popped_eq hok.1 rfl hn
          obtain rfl := step_of_pop hn hpop hk ht
          have hp : pendingMoves s.kernel.running c s.kernel = pendingMoves s.kernel.running c k + 1 := by
            rw [hcount]
            simp [pendingMoves, hc]
          obtain ⟨news, hqueue⟩ := h.queue
          cases hleft : s.left with
          | nil => simpa [hleft] using Change.wakesLater (w := w) hd hin' hp hleft
          | cons v vs =>
              rw [hx, hleft] at hqueue
              obtain rfl : w = v := (List.cons.inj hqueue).1
              simpa [hleft] using Change.wakes hd hin' hp hleft
        · have hpop : s.popped c .run = [] := if_neg fun hm => hmove (Option.some.inj (hn.symm.trans hm.2))
          obtain rfl := step_of_quiet hpop (fun hl => hloop ⟨c, l, Option.some.inj (hn.symm.trans hl.2.2.1)⟩) hk ht
          refine .quiet hd hin' ?_
          rw [hcount]
          simp [pendingMoves, hc, hmove]

/-- **One step** of a call. -/
theorem Tracked.change (h : Tracked caller c l s) (hok : s.Ok caller c l act) {k : Kernel (ListMem Queue ℕ)}
    (hk : s.kernel.step act = some k) (ht : s.step caller c l act = some t) : Change caller c l s act k t := by
  by_cases hrun : s.kernel.running = caller
  · exact h.change_own hok hrun hk ht
  · exact h.change_other hok hrun hk ht

/-- The waiters of the call stand in front of those that came later. -/
theorem Tracked.queue_step (h : Tracked caller c l s) (hok : s.Ok caller c l act) {k : Kernel (ListMem Queue ℕ)}
    (hk : s.kernel.step act = some k) (ht : s.step caller c l act = some t) :
    ∃ news, members k.mem (.cond c) = t.left ++ news := by
  obtain ⟨news, hqueue⟩ := h.queue
  have hleft : t.left = s.left.drop (s.popped c act).length := by
    unfold step at ht
    rw [hk, Option.map_some, Option.some.injEq] at ht
    rw [← ht]
  rw [hleft, h.followed.cond hok.1 hk c, condAfter, hqueue]
  split_ifs with hpush hmove
  · have hpop : s.popped c act = [] := by simp [popped, hpush.2]
    exact ⟨news ++ [s.kernel.running], by simp [hpop]⟩
  · obtain ⟨w, ws, -, hpop⟩ := popped_eq hok.1 hmove.1 hmove.2
    rw [hpop]
    cases s.left with
    | nil => exact ⟨news.tail, by simp⟩
    | cons v vs => exact ⟨news, by simp⟩
  · have hpop : s.popped c act = [] := if_neg hmove
    exact ⟨news, by simp [hpop]⟩

theorem Tracked.step (h : Tracked caller c l s) (hok : s.Ok caller c l act) (ht : s.step caller c l act = some t) :
    Tracked caller c l t := by
  obtain ⟨k, hk, hkernel⟩ := Option.map_eq_some_iff.mp ht
  have hsize := h.size
  have hround := h.round hok.2
  have hqueue := h.queue_step hok hk ht
  have hfollowed : Followed k := h.followed.step hok.1 hk
  have hexists : caller < k.nextTid := Nat.lt_of_lt_of_le h.exists_caller (h.followed.sane.step_keeps hk).2
  cases h.change hok hk ht with
  | quiet hd hin hp => exact ⟨hfollowed, hexists, h.once, hqueue, hsize, fun _ => hp ▸ hround, fun hout => absurd hin hout⟩
  | returns hd hout hnil => exact ⟨hfollowed, hexists, h.once, hqueue, hsize, fun hin => absurd hin hout, fun _ => hnil⟩
  | goesOn hd hin hp =>
      refine ⟨hfollowed, hexists, h.once, hqueue, hsize, fun _ => ?_, fun hout => absurd hin hout⟩
      simp only [hp.2]
      omega
  | wakes hd hin hp hleft =>
      rw [hleft, List.length_cons] at hsize
      refine ⟨hfollowed, hexists, h.once, hqueue, ?_, fun _ => ?_, fun hout => absurd hin hout⟩
      · simp only [List.length_append, List.length_singleton]
        omega
      · simp only [List.length_append, List.length_singleton]
        omega
  | wakesLater hd hin hp hleft =>
      refine ⟨hfollowed, hexists, h.once, hqueue, hsize, fun _ => ?_, fun hout => absurd hin hout⟩
      simp only [List.length_append, List.length_singleton]
      omega
  | taken hd hin hp hleft =>
      rw [hleft, List.length_cons] at hsize
      exact ⟨hfollowed, hexists, h.once, hqueue, by simp only; omega, fun _ => hp ▸ hround, fun hout => absurd hin hout⟩

/-- What the steps that disturb a call break. -/
def Clean (s : SignalCall (ListMem Queue ℕ)) : Prop :=
  s.woken ++ s.left = s.waiters ∧ s.later = [] ∧ s.rounds ≤ s.waiters.length

/-- **The steps that break it** are those that disturb. -/
theorem Tracked.clean_step (h : Tracked caller c l s) (hok : s.Ok caller c l act) (ht : s.step caller c l act = some t) :
    t.Clean ↔ s.Clean ∧ ¬ s.Disturbs caller c l act := by
  obtain ⟨k, hk, -⟩ := Option.map_eq_some_iff.mp ht
  have hsize := h.size
  have hround := h.round hok.2
  unfold Clean
  cases h.change hok hk ht with
  | quiet hd hin hp => exact (and_iff_left hd).symm
  | returns hd hout hnil => exact (and_iff_left hd).symm
  | goesOn hd hin hp =>
      rw [hd]
      constructor
      · rintro ⟨hw, hlater, hr⟩
        have hlen := congrArg List.length hw
        rw [List.length_append] at hlen
        refine ⟨⟨hw, hlater, by simp only at hr; omega⟩, fun hnil => ?_⟩
        simp only [hnil, List.length_nil] at hlen hround hr
        omega
      · rintro ⟨⟨hw, hlater, hr⟩, hne⟩
        have hlen := congrArg List.length hw
        rw [List.length_append] at hlen
        have hpos := List.length_pos_iff.mpr hne
        simp only [hlater, List.length_nil] at hround
        exact ⟨hw, hlater, by simp only; omega⟩
  | wakes hd hin hp hleft => simp [hd, hleft]
  | wakesLater hd hin hp hleft =>
      -- more rounds than waiters have begun before
      constructor
      · rintro ⟨-, hlater, -⟩
        exact absurd hlater (List.append_ne_nil_of_right_ne_nil _ (List.cons_ne_nil _ _))
      · rintro ⟨⟨hw, -, hr⟩, -⟩
        have hlen := congrArg List.length hw
        rw [List.length_append, hleft, List.length_nil] at hlen
        omega
  | taken hd hin hp hleft =>
      constructor
      · rintro ⟨hw, -⟩
        have hlen := congrArg List.length hw
        rw [hleft, List.length_cons] at hsize
        simp only [List.length_append] at hlen
        omega
      · rintro ⟨-, hno⟩
        exact absurd hd hno

/-- Who is woken is the last that is ready. -/
theorem Tracked.woken_ready (h : Tracked caller c l s) (hok : s.Ok caller c l act) (ht : s.step caller c l act = some t)
    {w : ℕ} (hw : t.woken = s.woken ++ [w]) : members t.kernel.mem .ready = members s.kernel.mem .ready ++ [w] := by
  obtain ⟨k, hk, rfl⟩ := Option.map_eq_some_iff.mp ht
  have hpop : s.popped c act = [w] := by
    simp only at hw
    split_ifs at hw
    · exact List.append_cancel_left hw
    · simp at hw
  have hmove : act = .run ∧ s.kernel.next? = some (.signalMove c) := by
    by_contra hno
    rw [popped, if_neg hno] at hpop
    cases hpop
  obtain ⟨rfl, hn⟩ := hmove
  obtain ⟨a, hr, hi⟩ := h.followed
  obtain ⟨v, hv⟩ := hr.signalled hi hok.1 hn hk
  have hvw : v = w := by
    rw [popped, if_pos ⟨rfl, hn⟩, hv.waited] at hpop
    exact (List.cons.inj hpop).1
  exact hvw ▸ hv.ready

theorem tracked_start {k₀ k₁ : Kernel (ListMem Queue ℕ)} (hf : Followed k₀)
    (hs : k₀.step (.call (.condvarSignalAll c l)) = some k₁) : Tracked k₀.running c l (start k₁ c) := by
  obtain ⟨-, hc, rfl⟩ := Kernel.step_call hs
  have hproper : k₀.Proper (.call (.condvarSignalAll c l)) := trivial
  have hf' : Followed (k₀.enter (ThreadOp.condvarSignalAll c l).body) := hf.step hproper hs
  have hcont : (k₀.enter (ThreadOp.condvarSignalAll c l).body).cont k₀.running = [.signalAll c l] := by
    rw [Kernel.enter_self, hc]
    rfl
  have hin : (start (k₀.enter (ThreadOp.condvarSignalAll c l).body) c).InCall k₀.running c l := by
    show _ ∈ (k₀.enter (ThreadOp.condvarSignalAll c l).body).cont k₀.running
    rw [hcont]
    exact List.mem_singleton_self _
  refine ⟨hf', hf.sane.exists_running, ?_, ⟨[], (List.append_nil _).symm⟩, ?_, fun _ => ?_, fun hout => absurd hin hout⟩
  · obtain ⟨a, hr, hi⟩ := hf'
    show (members _ _).Nodup
    rw [members_eq hr.mem]
    exact hi.queues.nodup _
  · simp [start]
  · simp [start, pendingMoves, hcont]

end SignalCall

/-- **Signals to all.**  In every proper run, and whatever other threads do while it releases the lock, a call of
`condvar_signal_all` wakes exactly the threads that waited when it was made, each once and in as many rounds, exactly as long
as its loop does not find the list to hold only threads that came later, and no other thread takes one of the waiters; who
is woken is ready. -/
theorem condvar_signal_all_iff {mem : ListMem Queue ℕ} (h₀ : ∀ l, Initialised mem l ∨ ZeroFilled mem l)
    {value : ℕ → ℕ} {level : InterruptLevel} {intr : Bool} {k₀ k₁ : Kernel (ListMem Queue ℕ)}
    (hk : Reach Kernel.step Kernel.Proper (initThreads mem value level intr) k₀) {c l : ℕ}
    (hs : k₀.step (.call (.condvarSignalAll c l)) = some k₁) {s : SignalCall (ListMem Queue ℕ)}
    (h : Reach (SignalCall.step k₀.running c l) (SignalCall.Ok k₀.running c l) (.start k₁ c) s) :
    (SignalsAll k₀.running c l s ↔ Reach (SignalCall.step k₀.running c l)
      (fun s act => s.Ok k₀.running c l act ∧ ¬ s.Disturbs k₀.running c l act) (.start k₁ c) s) ∧
      ∀ act t, s.Ok k₀.running c l act → s.step k₀.running c l act = some t → ∀ w, t.woken = s.woken ++ [w] →
        members t.kernel.mem .ready = members s.kernel.mem .ready ++ [w] := by
  have hstart := SignalCall.tracked_start (followed_of_reach h₀ hk) hs
  have htracked : ∀ u, Reach (SignalCall.step k₀.running c l) (SignalCall.Ok k₀.running c l) (.start k₁ c) u →
      u.Tracked k₀.running c l := fun u hu => hu.invariant hstart fun _ _ _ => SignalCall.Tracked.step
  have hclean : SignalsAll k₀.running c l s ↔ s.Clean :=
    ⟨fun hr => ⟨hr.woken, hr.later, hr.rounds⟩, fun hr => ⟨hr.1, (htracked s h).once, hr.2.1, hr.2.2, (htracked s h).done⟩⟩
  refine ⟨?_, fun act t hok ht w => (htracked s h).woken_ready hok ht⟩
  rw [hclean]
  exact h.good_iff (G := SignalCall.Clean) (B := SignalCall.Disturbs k₀.running c l)
    ⟨List.nil_append _, rfl, Nat.zero_le _⟩ fun u act v hu hok hv => (htracked u hu).clean_step hok hv

/-- Statements and interrupts that are plain, and signals to a thread that waits. -/
def Kernel.Orderly {M : Type} [ThreadQueues M] (k : Kernel M) (act : Action) : Bool :=
  k.Plain act || match act, k.next? with
    | .run, some (.signalMove c) => !(members k.mem (.cond c)).isEmpty
    | _, _ => false

theorem Kernel.Orderly.proper {M : Type} [ThreadQueues M] {k : Kernel M} {act : Action} (h : k.Orderly act = true) :
    k.Proper act := by
  rcases Bool.or_eq_true_iff.mp h with hplain | hmove
  · exact Kernel.Plain.proper hplain
  · split at hmove
    · next c hn =>
        intro stmt hst
        obtain rfl := Option.some.inj (hn.symm.trans hst)
        exact fun hnil => by simp [hnil] at hmove
    · cases hmove

/-- Thread `2` waits and thread `3` signals to all; `acts` come behind the call, and disturb it only if `disturbed`. -/
def signalAllRun (disturbed : Bool) (acts : List Action) :
    Option (Kernel (ListMem Queue ℕ) × Kernel (ListMem Queue ℕ) × SignalCall (ListMem Queue ℕ)) := do
  let mem : ListMem Queue ℕ := ⟨fun _ => .null, fun _ => .null, fun _ => 0⟩
  let k₀ ← runs Kernel.step (fun k act => k.Plain act = true) (initThreads mem (fun _ => 0) .enabled true)
    [.call .createThread, .run, .call .createThread, .run, .call .exitThread, .run, .run, .call (.lockAcquire 0), .run, .run,
      .call (.condvarWait 0 0), .run, .run, .run, .run, .run, .call (.lockAcquire 0), .run, .run]
  let k₁ ← k₀.step (.call (.condvarSignalAll 0 0))
  let s ← runs (SignalCall.step k₀.running 0 0) (fun s act => s.kernel.Orderly act = true ∧
    .signalAll 0 0 ∈ s.kernel.cont k₀.running ∧ (disturbed = false → ¬ s.Disturbs k₀.running 0 0 act)) (.start k₁ 0) acts
  return (k₀, k₁, s)

/-- What such a run is. -/
theorem signalAllRun_reach {disturbed : Bool} {acts : List Action} {k₀ k₁ : Kernel (ListMem Queue ℕ)}
    {s : SignalCall (ListMem Queue ℕ)} (h : signalAllRun disturbed acts = some (k₀, k₁, s)) :
    Reach Kernel.step Kernel.Proper
        (initThreads ⟨fun _ => .null, fun _ => .null, fun _ => 0⟩ (fun _ => 0) .enabled true) k₀ ∧
      k₀.step (.call (.condvarSignalAll 0 0)) = some k₁ ∧
      Reach (SignalCall.step k₀.running 0 0) (fun s act => s.Ok k₀.running 0 0 act ∧
        (disturbed = false → ¬ s.Disturbs k₀.running 0 0 act)) (.start k₁ 0) s := by
  unfold signalAllRun at h
  obtain ⟨k, hk, h⟩ := Option.bind_eq_some_iff.mp h
  obtain ⟨k', hk', h⟩ := Option.bind_eq_some_iff.mp h
  obtain ⟨s', hs', h⟩ := Option.bind_eq_some_iff.mp h
  cases h
  refine ⟨(Reach.of_runs hk).mono fun _ _ hok => Kernel.Plain.proper hok, hk', ?_⟩
  exact (Reach.of_runs hs').mono fun _ _ ⟨hok, hin, hquiet⟩ => ⟨⟨Kernel.Orderly.proper hok, hin⟩, hquiet⟩

/-- Nobody else comes in between. -/
theorem condvar_signal_all_one : ∃ k₀ k₁ s,
    signalAllRun false [.run, .run, .run, .run, .run, .run, .run] = some (k₀, k₁, s) ∧ SignalsAll k₀.running 0 0 s ∧
      s.waiters = [2] ∧ s.woken = [2] := by
  have hrun : (signalAllRun false [.run, .run, .run, .run, .run, .run, .run]).map
      (fun r => (r.2.2.waiters, r.2.2.woken)) = some ([2], [2]) := by decide +kernel
  obtain ⟨⟨k₀, k₁, s⟩, hs, he⟩ := Option.map_eq_some_iff.mp hrun
  obtain ⟨hwaiters, hwoken⟩ := Prod.mk.inj he
  obtain ⟨hk₀, hk₁, hreach⟩ := signalAllRun_reach hs
  have hquiet := hreach.mono fun _ _ hok => And.intro hok.1 (hok.2 rfl)
  have hright := (condvar_signal_all_iff (fun l => .inr ⟨rfl, rfl, rfl, rfl, rfl⟩) hk₀ hk₁
    (hreach.mono fun _ _ hok => hok.1)).1.mpr hquiet
  exact ⟨k₀, k₁, s, hs, hright, hwaiters, hwoken⟩

/-- **Woken again**: the thread that was woken waits again before the caller has the lock back. -/
theorem condvar_signal_all_again : ∃ k₀ k₁ s, Reach Kernel.step Kernel.Proper
      (initThreads (⟨fun _ => .null, fun _ => .null, fun _ => 0⟩ : ListMem Queue ℕ) (fun _ => 0) .enabled true) k₀ ∧
    k₀.step (.call (.condvarSignalAll 0 0)) = some k₁ ∧
    Reach (SignalCall.step k₀.running 0 0) (SignalCall.Ok k₀.running 0 0) (.start k₁ 0) s ∧
    s.waiters = [2] ∧ s.woken = [2] ∧ s.later = [2] ∧ s.rounds = 2 ∧ ¬ SignalsAll k₀.running 0 0 s := by
  have hrun : (signalAllRun true [.run, .run, .run, .run, .interrupt, .run, .run, .call (.condvarWait 0 0), .run, .run, .run,
      .run, .run, .run, .run, .run, .run, .run, .run]).map
      (fun r => (r.2.2.waiters, r.2.2.woken, r.2.2.later, r.2.2.rounds)) = some ([2], [2], [2], 2) := by decide +kernel
  obtain ⟨⟨k₀, k₁, s⟩, hs, he⟩ := Option.map_eq_some_iff.mp hrun
  simp only [Prod.mk.injEq] at he
  obtain ⟨hwaiters, hwoken, hlater, hrounds⟩ := he
  obtain ⟨hk₀, hk₁, hreach⟩ := signalAllRun_reach hs
  refine ⟨k₀, k₁, s, hk₀, hk₁, hreach.mono fun _ _ hok => hok.1, hwaiters, hwoken, hlater, hrounds, fun hright => ?_⟩
  have hnone := hright.later
  rw [hlater] at hnone
  cases hnone

end Dunkos
