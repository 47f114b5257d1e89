import Dunkos.Timer

/-! # The end of the first time slice (`timer.c`)

The interrupt that finds the time slice used up comes to `halt`, with interrupts disabled: the processor stays there.  No
thread ever sets `thread_ticks` back, so that the first slice is also the last one.  `clock_stops` says what this means for
all runs: there are a hundred interrupts at most, none of them takes the processor from a thread, and whoever is to sleep
beyond them sleeps for good. -/

namespace Dunkos

open Kernel

namespace Sleepers
variable {M : Type}

/-- The interrupt does not come to `halt`. -/
def GoesOn (s : Sleepers M) (act : SleepAction) : Prop := act = .tick → ¬ timeSlice < s.threadTicks + 1

instance (s : Sleepers M) (act : SleepAction) : Decidable (s.GoesOn act) := inferInstanceAs (Decidable (_ → _))

/-- What `sleep_end` was set to by the calls of a thread, the last one first. -/
def ends (s : Sleepers M) (u : ℕ) : List (BitVec 64) := (s.calls u).map fun c => c.start + c.duration

/-- The interrupts that incremented the `sleep_sema` of a thread. -/
def posts (s : Sleepers M) (u : ℕ) : List ℕ := (s.calls u).flatMap SleepCall.incs

/-- The thread has not called `sleep_ticks`, or once, to sleep until a tick behind the time slice. -/
def Late (s : Sleepers M) (u : ℕ) : Prop := s.ends u = [] ∨ ∃ e, timeSlice < e ∧ s.ends u = [e]

/-- The first time slice is all that there is. -/
structure OneSlice [ThreadQueues M] (s : Sleepers M) : Prop where
  ticks : s.ticks.toNat = s.interrupts
  interrupts_le : s.interrupts ≤ 100
  halts : ¬ s.GoesOn .tick ↔ s.interrupts = 100
  keeps_running : ∀ s', s.GoesOn .tick → s.step .tick = some s' →
    s'.kernel.running = s.kernel.running ∧ s'.kernel.cont = s.kernel.cont
  sleeps : ∀ u c, s.calls u = [c] → timeSlice < c.start + c.duration → c.incs = [] ∧ s.pc u ≠ .user

/-- What holds of one thread. -/
structure SleepsOn (s : Sleepers M) (u : ℕ) : Prop where
  sleepEnd : s.sleepEnd u = (s.ends u).headD (-1)
  posts : s.Late u → s.posts u = []
  zero : s.Late u → s.kernel.value (.sem (sleepSema u)) = 0
  asleep : s.Late u → s.pc u = .asleep → pending (.sem (sleepSema u)) (s.kernel.cont u) ≠ []
  inside : s.Late u → s.ends u ≠ [] → s.pc u ≠ .user

/-- The invariant. -/
structure FirstSlice (s : Sleepers M) : Prop where
  sane : s.kernel.Sane
  slice : s.threadTicks = s.ticks
  ticks : s.ticks.toNat = s.interrupts
  interrupts_le : s.interrupts ≤ 100
  fresh : ∀ u, s.kernel.nextTid ≤ u → s.pc u = .user ∧ ∀ x, pending x (s.kernel.cont u) = []
  unposted : ∀ t u, .semaphoreInc (.sem (sleepSema u)) ∉ s.kernel.cont t
  threads : ∀ u, s.SleepsOn u

variable {s s' : Sleepers M}

/-! ### The ends of the calls -/

theorem map_end_modifyHead {f : SleepCall → SleepCall} (hf : ∀ c, (f c).start + (f c).duration = c.start + c.duration)
    (cs : List SleepCall) :
    (cs.modifyHead f).map (fun c => c.start + c.duration) = cs.map fun c => c.start + c.duration := by
  cases cs with
  | nil => rfl
  | cons c cs => simp [hf]

theorem flatMap_incs_modifyHead {f : SleepCall → SleepCall} (hf : ∀ c, (f c).incs = c.incs) (cs : List SleepCall) :
    (cs.modifyHead f).flatMap SleepCall.incs = cs.flatMap SleepCall.incs := by
  cases cs with
  | nil => rfl
  | cons c cs => simp [hf]

theorem map_end_recordTick (s : Sleepers M) (ticks : BitVec 64) (woken : List ℕ) (u : ℕ) :
    (s.recordTick ticks woken u).map (fun c => c.start + c.duration) = s.ends u := by
  have htick : ((s.calls u).map (SleepCall.tick (s.interrupts + 1) ticks)).map (fun c => c.start + c.duration) = s.ends u := by
    rw [List.map_map]
    rfl
  unfold recordTick
  dsimp only
  split_ifs
  · refine (map_end_modifyHead (fun c => ?_) _).trans htick
    rfl
  · exact htick

theorem flatMap_incs_recordTick (s : Sleepers M) (ticks : BitVec 64) {woken : List ℕ} {u : ℕ} (h : u ∉ woken) :
    (s.recordTick ticks woken u).flatMap SleepCall.incs = s.posts u := by
  unfold recordTick
  dsimp only
  rw [if_neg h, List.flatMap_map]
  rfl

theorem Late.not_reached {u : ℕ} (h : s.Late u) (hu : s.SleepsOn u) {ticks : BitVec 64} (ht : ticks ≤ timeSlice) :
    ¬ s.sleepEnd u ≤ ticks := by
  have hlate : timeSlice < s.sleepEnd u := by
    rw [hu.sleepEnd]
    rcases h with h | ⟨e, he, h⟩
    · rw [h]
      decide
    · rw [h]
      exact he
  rw [BitVec.lt_def] at hlate
  rw [BitVec.le_def] at ht ⊢
  omega

/-- A step that leaves the calls of a thread as they are. -/
theorem SleepsOn.keep {u : ℕ} (h : s.SleepsOn u) (hends : s'.ends u = s.ends u) (hend : s'.sleepEnd u = s.sleepEnd u)
    (hposts : s.Late u → s'.posts u = s.posts u) (hpc : s.Late u → s'.pc u = s.pc u)
    (hzero : s.Late u → s'.kernel.value (.sem (sleepSema u)) = 0)
    (hwait : s.Late u → pending (.sem (sleepSema u)) (s.kernel.cont u) ≠ [] →
      pending (.sem (sleepSema u)) (s'.kernel.cont u) ≠ []) : s'.SleepsOn u := by
  have hlate : s'.Late u → s.Late u := by
    unfold Late
    rw [hends]
    exact id
  refine ⟨?_, fun hl => (hposts (hlate hl)).trans (h.posts (hlate hl)), fun hl => hzero (hlate hl), fun hl hp => ?_,
    fun hl hne => ?_⟩
  · rw [hend, hends]
    exact h.sleepEnd
  · rw [hpc (hlate hl)] at hp
    exact hwait (hlate hl) (h.asleep (hlate hl) hp)
  · rw [hends] at hne
    rw [hpc (hlate hl)]
    exact h.inside (hlate hl) hne

/-! ### Steps of threads -/

namespace FirstSlice

/-- The running thread goes on outside of the kernel, and calls a function of it or none. -/
theorem goes (h : s.FirstSlice) (hout : s.Outside) (ys : List Stmt) (hk : s'.kernel = s.kernel.enter ys) (hy : Formed ys)
    (hno : ∀ u, .semaphoreInc (.sem (sleepSema u)) ∉ ys) (hticks : s'.ticks = s.ticks)
    (hslice : s'.threadTicks = s.threadTicks) (hcount : s'.interrupts = s.interrupts)
    (hpc : ∀ u, u ≠ s.kernel.running → s'.pc u = s.pc u) (hcalls : ∀ u, u ≠ s.kernel.running → s'.calls u = s.calls u)
    (hend : ∀ u, u ≠ s.kernel.running → s'.sleepEnd u = s.sleepEnd u) (hself : s'.SleepsOn s.kernel.running) :
    s'.FirstSlice := by
  have hothers : ∀ u, u ≠ s.kernel.running → s'.kernel.cont u = s.kernel.cont u := by
    intro u hu
    rw [hk]
    exact enter_others _ _ hu
  refine ⟨?_, ?_, ?_, ?_, fun u hu => ?_, fun t u hin => ?_, fun u => ?_⟩
  · rw [hk]
    exact h.sane.enter hout.1 hout.2 hy
  · rw [hslice, hticks]
    exact h.slice
  · rw [hticks, hcount]
    exact h.ticks
  · rw [hcount]
    exact h.interrupts_le
  · rw [hk] at hu
    have hne : u ≠ s.kernel.running := (Nat.lt_of_lt_of_le h.sane.exists_running hu).ne'
    rw [hpc u hne, hothers u hne]
    exact h.fresh u hu
  · rw [hk] at hin
    exact h.unposted t u (mem_of_mem_enter (hno u) hin)
  · rcases eq_or_ne u s.kernel.running with rfl | hu
    · exact hself
    · refine (h.threads u).keep (congrArg (List.map _) (hcalls u hu)) (hend u hu)
        (fun _ => congrArg (List.flatMap _) (hcalls u hu)) (fun _ => hpc u hu) (fun hl => ?_) fun _ hp => ?_
      · rw [hk]
        exact (h.threads u).zero hl
      · rwa [hothers u hu]

/-- The running thread goes on without a new call of `sleep_ticks`. -/
theorem moves (h : s.FirstSlice) (hout : s.Outside) (pc : SleepPc) (ys : List Stmt) (hk : s'.kernel = s.kernel.enter ys)
    (hy : Formed ys) (hno : ∀ u, .semaphoreInc (.sem (sleepSema u)) ∉ ys) (hticks : s'.ticks = s.ticks)
    (hslice : s'.threadTicks = s.threadTicks) (hcount : s'.interrupts = s.interrupts)
    (hpc : s'.pc = Function.update s.pc s.kernel.running pc)
    (hcalls : ∀ u, u ≠ s.kernel.running → s'.calls u = s.calls u)
    (hends : s'.ends s.kernel.running = s.ends s.kernel.running)
    (hposts : s'.posts s.kernel.running = s.posts s.kernel.running) (hend : s'.sleepEnd = s.sleepEnd)
    (hasleep : pc = .asleep → pending (.sem (sleepSema s.kernel.running)) ys ≠ [])
    (huser : s.Late s.kernel.running → s.ends s.kernel.running ≠ [] → pc ≠ .user) : s'.FirstSlice := by
  have hself : s'.pc s.kernel.running = pc := by
    rw [hpc]
    exact Function.update_self ..
  have hlate : s'.Late s.kernel.running → s.Late s.kernel.running := by
    unfold Late
    rw [hends]
    exact id
  have ht := h.threads s.kernel.running
  refine h.goes hout ys hk hy hno hticks hslice hcount (fun u hu => ?_) hcalls (fun u _ => congrFun hend u)
    ⟨?_, fun hl => hposts.trans (ht.posts (hlate hl)), fun hl => ?_, fun hl hp => ?_, fun hl hne => ?_⟩
  · rw [hpc]
    exact Function.update_of_ne hu _ _
  · rw [hend, hends]
    exact ht.sleepEnd
  · rw [hk]
    exact ht.zero (hlate hl)
  · rw [hself] at hp
    rw [hk, enter_self, hout.2, List.append_nil]
    exact hasleep hp
  · rw [hends] at hne
    rw [hself]
    exact huser (hlate hl) hne

/-- `sleep_ticks` up to `lock_acquire`. -/
theorem sleepTicks (h : s.FirstSlice) (hout : s.Outside) (t : BitVec 64) : (s.sleepTicks t).FirstSlice := by
  have hpc : (s.sleepTicks t).pc s.kernel.running = .acquire := Function.update_self ..
  have hcalls : (s.sleepTicks t).calls s.kernel.running = ⟨s.ticks, t, false, none, []⟩ :: s.calls s.kernel.running :=
    Function.update_self ..
  have hends : (s.sleepTicks t).ends s.kernel.running = (s.ticks + t) :: s.ends s.kernel.running := by
    unfold ends
    rw [hcalls]
    rfl
  have ht := h.threads s.kernel.running
  have hfirst : (s.sleepTicks t).Late s.kernel.running → s.ends s.kernel.running = [] := by
    rintro (hl | ⟨e, -, hl⟩)
    · rw [hends] at hl
      cases hl
    · rw [hends] at hl
      exact (List.cons.inj hl).2
  refine h.goes hout (lockAcquire sleepQueueLock) rfl (.acquire .done) (by simp [lockAcquire]) rfl rfl rfl
    (fun u hu => Function.update_of_ne hu _ _) (fun u hu => Function.update_of_ne hu _ _)
    (fun u hu => Function.update_of_ne hu _ _) ⟨?_, fun hl => ?_, fun hl => ht.zero (.inl (hfirst hl)), fun _ hp => ?_,
      fun _ _ => ?_⟩
  · rw [hends]
    exact Function.update_self ..
  · unfold posts
    rw [hcalls]
    exact ht.posts (.inl (hfirst hl))
  · cases hpc.symm.trans hp
  · rw [hpc]
    simp

/-- **One step** of the running thread in `sleep_ticks`. -/
theorem advance (h : s.FirstSlice) (hout : s.Outside) (hs : s.advance (s.pc s.kernel.running) = some s') : s'.FirstSlice := by
  have hqueued : s.enqueued.calls s.kernel.running =
      (s.calls s.kernel.running).modifyHead fun c => { c with queued := true } := Function.update_self ..
  cases hpc : s.pc s.kernel.running with
  | user =>
      rw [hpc] at hs
      cases hs
  | asleep =>
      rw [hpc] at hs
      cases hs
      refine h.moves hout .user [] (enter_nil _).symm .nil (fun _ => List.not_mem_nil) rfl rfl rfl rfl (fun _ _ => rfl) rfl
        rfl rfl (by simp) fun hl _ => ?_
      have hwait := (h.threads s.kernel.running).asleep hl hpc
      rw [hout.2] at hwait
      exact absurd rfl hwait
  | release =>
      rw [hpc] at hs
      cases hs
      refine h.moves hout .asleep (ThreadOp.semaphoreDec (sleepSema s.kernel.running)).body rfl (ThreadOp.formed _)
        (by simp [ThreadOp.body]) rfl rfl rfl rfl (fun _ _ => rfl) rfl rfl rfl (fun _ => ?_) fun _ _ => by simp
      simp [ThreadOp.body, pending, Stmt.sema?]
  | pushSize =>
      rw [hpc] at hs
      cases hs
      refine h.moves hout .release (lockRelease sleepQueueLock) rfl (.release .done) (by simp [lockRelease]) rfl rfl rfl rfl
        (fun u hu => Function.update_of_ne hu _ _) ?_ ?_ rfl (by simp) fun _ _ => by simp
      · refine (congrArg (List.map _) hqueued).trans (map_end_modifyHead (fun c => ?_) _)
        rfl
      · refine (congrArg (List.flatMap _) hqueued).trans (flatMap_incs_modifyHead (fun c => ?_) _)
        rfl
  | _ =>
      rw [hpc] at hs
      cases hs
      exact h.moves hout _ [] (enter_nil _).symm .nil (fun _ => List.not_mem_nil) rfl rfl rfl rfl (fun _ _ => rfl) rfl rfl
        rfl (by simp) fun _ _ => by simp

end FirstSlice

section
variable [ThreadQueues M]

namespace FirstSlice

/-- A function of the kernel that another one calls. -/
theorem kernelCall (h : s.FirstSlice) {op : ThreadOp} {k' : Kernel M} (hok : s.Unrelated (.kernel (.call op)))
    (hpc : s.pc s.kernel.running = .user) (hk : s.kernel.step (.call op) = some k') :
    FirstSlice { s with kernel := k' } := by
  obtain ⟨hidle, hc, rfl⟩ := step_call hk
  refine h.moves ⟨hidle, hc⟩ .user op.body rfl op.formed (fun u hin => ?_) rfl rfl rfl ?_ (fun _ _ => rfl) rfl
    rfl rfl (by simp) fun hl hne => absurd hpc ((h.threads _).inside hl hne)
  · cases op with
    | semaphoreInc i =>
        have hi : i % 2 = 1 := hok
        have heq : sleepSema u = i := by simpa [ThreadOp.body] using hin
        unfold sleepSema at heq
        omega
    | condvarWait c l => simp [ThreadOp.body, condvarWait, lockAcquire, lockRelease] at hin
    | condvarSignalOne c l => simp [ThreadOp.body, condvarSignalOne, lockAcquire, lockRelease] at hin
    | condvarSignalAll c l => simp [ThreadOp.body, condvarSignalAll] at hin
    | lockAcquire l => simp [ThreadOp.body, lockAcquire] at hin
    | lockRelease l => simp [ThreadOp.body, lockRelease] at hin
    | _ => simp [ThreadOp.body] at hin
  · rw [← hpc]
    exact (Function.update_eq_self _ _).symm

/-- One statement of the running thread. -/
theorem run (h : s.FirstSlice) {k' : Kernel M} (hk : s.kernel.step .run = some k') : FirstSlice { s with kernel := k' } := by
  obtain ⟨stmt, ys, hc, he, -⟩ := run_effect h.sane hk
  have hinc : ∀ u, stmt ≠ .semaphoreInc (.sem (sleepSema u)) := fun u hs =>
    h.unposted s.kernel.running u (hc ▸ hs ▸ List.mem_cons_self)
  have hothers : ∀ t x, t ≠ s.kernel.running → pending x (k'.cont t) = pending x (s.kernel.cont t) := fun t x ht =>
    he.pending_others ht fun hn => (h.fresh t hn.ge).2 x
  have hf := hc ▸ h.sane.formed s.kernel.running
  refine ⟨he.sane h.sane hc, h.slice, h.ticks, h.interrupts_le, fun u hu => ?_, fun t u hin => ?_, fun u => ?_⟩
  · have hu' := Nat.le_trans he.nextTid hu
    have hne : u ≠ s.kernel.running := (Nat.lt_of_lt_of_le h.sane.exists_running hu').ne'
    refine ⟨(h.fresh u hu').1, fun x => ?_⟩
    rw [hothers u x hne]
    exact (h.fresh u hu').2 x
  · exact h.unposted t u (he.called hc hin trivial)
  · have hzero := (h.threads u).zero
    refine (h.threads u).keep rfl rfl (fun _ => rfl) (fun _ => rfl)
      (fun hl => he.stays_zero hf (hinc u) (hzero hl)) fun hl hp => ?_
    rcases eq_or_ne u s.kernel.running with rfl | hu
    · exact he.keeps_waiting hc hf (hinc _) (hzero hl) hp
    · rwa [hothers u _ hu]

end FirstSlice

/-! ### The timer interrupt -/

/-- The loop increments semaphores of threads whose `sleep_end` has been reached, and nobody runs meanwhile. -/
structure Posts (s : Sleepers M) (ticks : BitVec 64) (k k' : Kernel M) : Prop where
  idle : k'.idle = k.idle
  nextTid : k'.nextTid = k.nextTid
  running : k'.running = k.running
  cont : k'.cont = k.cont
  value : ∀ u, ¬ s.sleepEnd u ≤ ticks → k'.value (.sem (sleepSema u)) = k.value (.sem (sleepSema u))

theorem wakeSleepers_posts {ticks : BitVec 64} {n : ℕ} {k : Kernel M} {el : Elem Unit ℕ} {r : Kernel M × List ℕ}
    (hr : s.wakeSleepers ticks n k el = some r) : Posts s ticks k r.1 ∧ ∀ u ∈ r.2, s.sleepEnd u ≤ ticks := by
  induction n generalizing k el r with
  | zero => cases hr
  | succ n ih =>
      unfold wakeSleepers at hr
      split_ifs at hr with hend
      · cases hr
        exact ⟨⟨rfl, rfl, rfl, rfl, fun _ _ => rfl⟩, by simp⟩
      · obtain ⟨v, -, hr⟩ := Option.bind_eq_some_iff.mp hr
        split_ifs at hr with hv
        · obtain ⟨k₁, hk₁, hr⟩ := Option.bind_eq_some_iff.mp hr
          obtain ⟨r', hr', rfl⟩ := Option.map_eq_some_iff.mp hr
          obtain ⟨hf, hrun⟩ := semaphoreInc_frame hk₁
          obtain ⟨hp, hreached⟩ := ih hr'
          refine ⟨⟨hp.idle.trans hf.idle, hp.nextTid.trans hf.nextTid, hp.running.trans hrun, hp.cont.trans hf.cont,
            fun u hu => ?_⟩, fun u hu => ?_⟩
          · rw [hp.value u hu, hf.value]
            refine Function.update_of_ne (fun he => ?_) _ _
            obtain rfl : u = v := by
              have h2 : 2 * u = 2 * v := Sema.sem.inj he
              omega
            exact hu hv
          · rcases List.mem_cons.mp hu with rfl | hu
            · exact hv
            · exact hreached u hu
        · exact ih hr

/-- An interrupt that does not halt. -/
theorem timerInterrupt_goesOn (hgo : s.GoesOn .tick) (hs : s.timerInterrupt = some s') :
    ∃ k woken, Posts s (s.ticks + 1) s.kernel k ∧ (∀ u ∈ woken, s.sleepEnd u ≤ s.ticks + 1) ∧
      s' = { s with
        kernel := { k.setInterruptLevel s.kernel.level with intr := true }
        ticks := s.ticks + 1
        threadTicks := s.threadTicks + 1
        interrupts := s.interrupts + 1
        calls := s.recordTick (s.ticks + 1) woken } := by
  unfold timerInterrupt at hs
  split_ifs at hs with hi
  obtain ⟨r, hr, hs⟩ := Option.bind_eq_some_iff.mp hs
  obtain ⟨hp, hreached⟩ := wakeSleepers_posts hr
  dsimp only at hs
  rw [if_neg (hgo rfl), if_neg (hgo rfl)] at hs
  exact ⟨r.1, r.2, ⟨hp.idle, hp.nextTid, hp.running, hp.cont, hp.value⟩, hreached, (Option.some.inj hs).symm⟩

namespace FirstSlice

omit [ThreadQueues M] in
theorem toNat_succ (h : s.FirstSlice) : (s.ticks + 1).toNat = s.interrupts + 1 := by
  have hle := h.interrupts_le
  have hone : (1 : BitVec 64).toNat = 1 := rfl
  rw [BitVec.toNat_add, h.ticks, hone]
  exact Nat.mod_eq_of_lt (by omega)

omit [ThreadQueues M] in
theorem goesOn_iff (h : s.FirstSlice) : s.GoesOn .tick ↔ s.interrupts < 100 := by
  have hle := h.interrupts_le
  have hsum : (s.threadTicks + 1).toNat = s.interrupts + 1 := by
    rw [h.slice]
    exact h.toNat_succ
  have hlt : timeSlice < s.threadTicks + 1 ↔ 100 < s.interrupts + 1 := by
    rw [BitVec.lt_def, hsum]
    rfl
  constructor
  · intro hgo
    have hno := hgo rfl
    rw [hlt] at hno
    omega
  · intro hlt' _
    rw [hlt]
    omega

/-- **An interrupt that does not halt.** -/
theorem tick (h : s.FirstSlice) (hgo : s.GoesOn .tick) (hs : s.timerInterrupt = some s') : s'.FirstSlice := by
  obtain ⟨k, woken, hp, hreached, rfl⟩ := timerInterrupt_goesOn hgo hs
  have hlt := h.goesOn_iff.mp hgo
  have hle : s.ticks + 1 ≤ timeSlice := by
    rw [BitVec.le_def, h.toNat_succ]
    exact hlt
  refine ⟨⟨?_, ?_, fun t => ?_, ?_⟩, congrArg (· + 1) h.slice, h.toNat_succ, hlt, fun u hu => ?_, fun t u hin => ?_,
    fun u => ?_⟩
  · show k.running < k.nextTid
    rw [hp.running, hp.nextTid]
    exact h.sane.exists_running
  · show k.idle < k.nextTid
    rw [hp.idle, hp.nextTid]
    exact h.sane.exists_idle
  · show Formed (k.cont t)
    rw [hp.cont]
    exact h.sane.formed t
  · show ∀ stmt ∈ k.cont k.idle, _
    rw [hp.cont, hp.idle]
    exact h.sane.idle_cont
  · have hu' : s.kernel.nextTid ≤ u := hp.nextTid ▸ hu
    refine ⟨(h.fresh u hu').1, fun x => ?_⟩
    show pending x (k.cont u) = []
    rw [hp.cont]
    exact (h.fresh u hu').2 x
  · refine h.unposted t u ?_
    rw [← hp.cont]
    exact hin
  · refine (h.threads u).keep (map_end_recordTick s _ _ u) rfl (fun hl => ?_) (fun _ => rfl) (fun hl => ?_)
      fun _ hwait => ?_
    · exact flatMap_incs_recordTick s _ fun hin => hl.not_reached (h.threads u) hle (hreached u hin)
    · exact (hp.value u (hl.not_reached (h.threads u) hle)).trans ((h.threads u).zero hl)
    · show pending _ (k.cont u) ≠ []
      rwa [hp.cont]

/-- **One step.** -/
theorem step (h : s.FirstSlice) {act : SleepAction} (hok : s.Unrelated act) (hgo : s.GoesOn act)
    (hs : s.step act = some s') : s'.FirstSlice := by
  cases act with
  | kernel act =>
      cases act with
      | call op =>
          unfold Sleepers.step at hs
          dsimp only at hs
          split_ifs at hs with hpc
          obtain ⟨k', hk, rfl⟩ := Option.map_eq_some_iff.mp hs
          exact h.kernelCall hok hpc hk
      | run =>
          obtain ⟨k', hk, rfl⟩ := Option.map_eq_some_iff.mp hs
          exact h.run hk
      | interrupt => cases hs
  | sleep t =>
      unfold Sleepers.step at hs
      dsimp only at hs
      split_ifs at hs with hout
      cases hs
      exact h.sleepTicks hout.1 t
  | advance =>
      unfold Sleepers.step at hs
      dsimp only at hs
      split_ifs at hs with hout
      exact h.advance hout hs
  | tick => exact h.tick hgo hs

theorem start (mem : M) (value : ℕ → ℕ) (level : InterruptLevel) (intr : Bool) (queue : ListMem Unit ℕ) :
    (Sleepers.start mem value level intr queue).FirstSlice where
  sane := initThreads_sane ..
  slice := rfl
  ticks := rfl
  interrupts_le := Nat.zero_le _
  fresh u _ := ⟨rfl, fun x => initThreads_pending _ _ _ _ x u⟩
  unposted t u hin := absurd hin (initThreads_not_mem _ _ _ _ (by simp) t)
  threads u := by
    refine ⟨rfl, fun _ => rfl, fun _ => ?_, (fun _ he => by cases he), fun _ hne => absurd rfl hne⟩
    show (initThreads ..).value _ = 0
    rw [initThreads_value, sleepSema, if_pos (Nat.mul_mod_right ..)]

theorem oneSlice (h : s.FirstSlice) : s.OneSlice where
  ticks := h.ticks
  interrupts_le := h.interrupts_le
  halts := by
    rw [h.goesOn_iff]
    have hle := h.interrupts_le
    omega
  keeps_running s' hgo hs := by
    obtain ⟨k, woken, hp, -, rfl⟩ := timerInterrupt_goesOn hgo hs
    exact ⟨hp.running, hp.cont⟩
  sleeps u c hc hlate := by
    have hends : s.ends u = [c.start + c.duration] := congrArg (List.map _) hc
    have hposts := (h.threads u).posts (.inr ⟨_, hlate, hends⟩)
    unfold posts at hposts
    rw [hc] at hposts
    refine ⟨by simpa using hposts, (h.threads u).inside (.inr ⟨_, hlate, hends⟩) ?_⟩
    rw [hends]
    exact List.cons_ne_nil _ _

end FirstSlice

end

end Sleepers

open Sleepers

/-- **The clock stops.**  In every run up to `halt`, the first time slice is all that there is: at most a hundred timer
interrupts are served, the next one halts, no interrupt takes the processor from a thread, and no interrupt wakes a thread
whose first call of `sleep_ticks` ends behind them. -/
theorem clock_stops {M : Type} [ThreadQueues M] {mem : M} {value : ℕ → ℕ} {level : InterruptLevel} {intr : Bool}
    {queue : ListMem Unit ℕ} {s : Sleepers M}
    (h : Transition.Reach Sleepers.step (fun s act => s.Unrelated act ∧ s.GoesOn act)
      (start mem value level intr queue) s) : s.OneSlice := by
  have hinv : s.FirstSlice := h.invariant (FirstSlice.start mem value level intr queue)
    fun _ _ _ hi hok hs => hi.step hok.1 hok.2 hs
  exact hinv.oneSlice

/-- Thread `2` sleeps for 101 ticks, of which two come. -/
theorem clock_stops_sleeper :
    ∃ s, Transition.runs Sleepers.step (fun s act => s.Unrelated act ∧ s.GoesOn act) startSleepers
        ([.kernel (.call .createThread), .kernel .run, .kernel (.call .yieldCurrent), .kernel .run, .kernel .run, .sleep 101,
          .kernel .run, .kernel .run, .advance, .advance, .advance, .advance, .advance, .kernel .run, .kernel .run,
          .advance, .kernel .run, .kernel .run, .tick, .tick]) = some s ∧
      s.calls 2 = [⟨0, 101, true, none, []⟩] ∧ s.interrupts = 2 ∧ s.OneSlice := by
  have hrun : (Transition.runs Sleepers.step (fun s act => s.Unrelated act ∧ s.GoesOn act) startSleepers
      ([.kernel (.call .createThread), .kernel .run, .kernel (.call .yieldCurrent), .kernel .run, .kernel .run, .sleep 101,
          .kernel .run, .kernel .run, .advance, .advance, .advance, .advance, .advance, .kernel .run, .kernel .run,
          .advance, .kernel .run, .kernel .run, .tick, .tick])).map
      (fun s => (s.calls 2, s.interrupts)) = some ([⟨0, 101, true, none, []⟩], 2) := by
    decide +kernel
  obtain ⟨s, hs, he⟩ := Option.map_eq_some_iff.mp hrun
  obtain ⟨hcalls, hcount⟩ := Prod.mk.inj he
  exact ⟨s, hs, hcalls, hcount, clock_stops (.of_runs hs)⟩

end Dunkos
