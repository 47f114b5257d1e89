import Dunkos.SemTable
import Dunkos.ThreadRun
import Dunkos.Lib.Reach

/-! # Locks of user programs (`usr/synch.c`, `syscall.c`)

A user lock is the id of a semaphore of the process.  `sdec` and `sinc` go to the kernel when the id is in
the table, and do nothing when it is not.  `lock_init` asks for a semaphore with value one, but `sget` always
returns `-1`, so that `lock_acquire` and `lock_release` do nothing but write `holder`.

`LockUse` is a process whose threads use one lock, over the kernel of `Thread.lean`: between two system
calls a thread is outside of the kernel, and `pc` is where it is in the functions of the user library.
`user_lock_mutual_exclusion` is about runs on an id in the table, `user_lock_unchecked` about the id that
`lock_init` gets. -/

namespace Dunkos

open ThreadQueues

/-- `struct lock` of the user library. -/
structure UserLock where
  sema : BitVec 32
  holder : BitVec 32
deriving DecidableEq, Repr

/-- `lock_init`. -/
def userLockInit (t : SemTable) : SemTable × UserLock :=
  let r := sget t 1
  (r.1, ⟨r.2, -1⟩)

/-- `sema > -1 && sema < bitmap_size(..)`, where `sema` is a `size_t` in the second comparison. -/
def SemTable.Valid (t : SemTable) (sema : BitVec 32) : Prop :=
  -1 < sema.toInt ∧ (sema.signExtend 64).toNat < bitmapSize t.map

instance (t : SemTable) (sema : BitVec 32) : Decidable (t.Valid sema) := inferInstanceAs (Decidable (_ ∧ _))

/-- What `sinc` runs of the kernel. -/
def sinc (t : SemTable) (sema : BitVec 32) : List Stmt :=
  if t.Valid sema then (ThreadOp.semaphoreInc (t.semtable + sema.toNat)).body else []

/-- What `sdec` runs of the kernel. -/
def sdec (t : SemTable) (sema : BitVec 32) : List Stmt :=
  if t.Valid sema then (ThreadOp.semaphoreDec (t.semtable + sema.toNat)).body else []

/-- Where a thread is: in the `sdec` of `lock_acquire`, between the two functions, behind the assignment of
`lock_release`, in its `sinc`, or in neither function. -/
inductive LockPc where
  | outside
  | acquiring
  | holding
  | releasing
  | leaving
deriving DecidableEq, Repr

/-- A process with a lock; `pid` is what `getpid` returns. -/
structure LockUse (M : Type) where
  kernel : Kernel M
  table : SemTable
  lock : UserLock
  pid : BitVec 32
  pc : ℕ → LockPc

/-- A step of the kernel, or one of the running thread in the user library: it calls `lock_acquire`, comes
back from `sdec`, calls `lock_release`, calls `sinc`, or comes back from it. -/
inductive LockAction where
  | kernel (act : Action)
  | acquire
  | acquired
  | release
  | inc
  | released
deriving DecidableEq, Repr

namespace LockUse
variable {M : Type} [ThreadQueues M] (s : LockUse M)

/-- The running thread goes from `pc` to `pc'`, and runs `stmts` of the kernel next. -/
def move (pc pc' : LockPc) (lock : UserLock) (stmts : List Stmt) : Option (LockUse M) :=
  if s.kernel.running ≠ s.kernel.idle ∧ s.kernel.cont s.kernel.running = [] ∧ s.pc s.kernel.running = pc then
    some { s with
      kernel := s.kernel.enter stmts
      lock := lock
      pc := Function.update s.pc s.kernel.running pc' }
  else none

/-- The functions of the kernel are called from outside of the user library. -/
def step : LockAction → Option (LockUse M)
  | .kernel (.call op) =>
      if s.pc s.kernel.running = .outside ∨ s.pc s.kernel.running = .holding then
        (s.kernel.step (.call op)).map fun k => { s with kernel := k }
      else none
  | .kernel act => (s.kernel.step act).map fun k => { s with kernel := k }
  | .acquire => s.move .outside .acquiring s.lock (sdec s.table s.lock.sema)
  | .acquired => s.move .acquiring .holding { s.lock with holder := s.pid } []
  | .release => s.move .holding .releasing { s.lock with holder := -1 } []
  | .inc => s.move .releasing .leaving s.lock (sinc s.table s.lock.sema)
  | .released => s.move .leaving .outside s.lock []

end LockUse

/-! ### Who is inside -/

open Kernel

/-- What a thread has pending on the semaphore of the lock. -/
def LockPc.Orderly (x : Sema) : LockPc → List Stmt → Prop
  | acquiring, stmts => stmts = [.semaphoreDec x] ∨ (∃ old, stmts = [.decLoop x 0 old]) ∨ stmts = []
  | leaving, stmts => stmts = [.semaphoreInc x] ∨ stmts = []
  | _, stmts => stmts = []

/-- A thread is inside from the `semaphore_dec` of `lock_acquire` to the `semaphore_inc` of `lock_release`. -/
def LockPc.Inside : LockPc → List Stmt → Prop
  | outside, _ => False
  | acquiring, stmts => stmts = []
  | holding, _ => True
  | releasing, _ => True
  | leaving, stmts => stmts ≠ []

theorem LockPc.Orderly.cons {x : Sema} {pc : LockPc} {stmt : Stmt} {stmts : List Stmt}
    (h : pc.Orderly x (stmt :: stmts)) : stmts = [] ∧
      (pc = .acquiring ∧ (stmt = .semaphoreDec x ∨ ∃ old, stmt = .decLoop x 0 old) ∨
        pc = .leaving ∧ stmt = .semaphoreInc x) := by
  cases pc with
  | acquiring =>
      rcases h with h | ⟨old, h⟩ | h
      · obtain ⟨rfl, rfl⟩ := List.cons.inj h
        exact ⟨rfl, .inl ⟨rfl, .inl rfl⟩⟩
      · obtain ⟨rfl, rfl⟩ := List.cons.inj h
        exact ⟨rfl, .inl ⟨rfl, .inr ⟨old, rfl⟩⟩⟩
      · cases h
  | leaving =>
      rcases h with h | h
      · obtain ⟨rfl, rfl⟩ := List.cons.inj h
        exact ⟨rfl, .inr ⟨rfl, rfl⟩⟩
      · cases h
  | outside => cases h
  | holding => cases h
  | releasing => cases h

namespace LockUse
variable {M : Type} [ThreadQueues M] {s s' : LockUse M}

def sema (s : LockUse M) : ℕ := s.table.semtable + s.lock.sema.toNat

def Inside (s : LockUse M) (i t : ℕ) : Prop := (s.pc t).Inside (pending (.sem i) (s.kernel.cont t))

/-- At most one thread is inside, and none as long as the value of the semaphore `i` is positive. -/
structure Inv (i : ℕ) (s : LockUse M) : Prop where
  sane : s.kernel.Sane
  valid : s.table.Valid s.lock.sema
  sema : s.sema = i
  orderly : ∀ t, (s.pc t).Orderly (.sem i) (pending (.sem i) (s.kernel.cont t))
  fresh : ∀ t, s.kernel.nextTid ≤ t → s.pc t = .outside
  value : s.kernel.value (.sem i) ≤ 1
  taken : ∀ t, s.Inside i t → s.kernel.value (.sem i) = 0
  single : ∀ t u, s.Inside i t → s.Inside i u → t = u

/-- Nobody but the users of the lock uses its semaphore. -/
def LeavesAlone (s : LockUse M) : LockAction → Prop
  | .kernel (.call op) => op ≠ .semaphoreInc s.sema ∧ op ≠ .semaphoreDec s.sema
  | _ => True

instance (s : LockUse M) (act : LockAction) : Decidable (s.LeavesAlone act) := by
  unfold LeavesAlone
  split <;> infer_instance

omit [ThreadQueues M] in
theorem move_eq {pc pc' : LockPc} {lock : UserLock} {stmts : List Stmt} (h : s.move pc pc' lock stmts = some s') :
    s.kernel.running ≠ s.kernel.idle ∧ s.kernel.cont s.kernel.running = [] ∧ s.pc s.kernel.running = pc ∧
      s' = { s with
        kernel := s.kernel.enter stmts
        lock := lock
        pc := Function.update s.pc s.kernel.running pc' } := by
  unfold move at h
  split_ifs at h with hg
  exact ⟨hg.1, hg.2.1, hg.2.2, (Option.some.inj h).symm⟩

namespace Inv
variable {i : ℕ}

omit [ThreadQueues M] in
/-- A thread has nothing pending before it exists. -/
theorem pending_new (h : s.Inv i) : pending (.sem i) (s.kernel.cont s.kernel.nextTid) = [] := by
  have ho := h.orderly s.kernel.nextTid
  rw [h.fresh _ (Nat.le_refl _)] at ho
  exact ho

omit [ThreadQueues M] in
/-- Steps of the kernel that do not concern the semaphore. -/
theorem keep (h : s.Inv i) {k' : Kernel M} (hsane : k'.Sane) (hnext : s.kernel.nextTid ≤ k'.nextTid)
    (hv : k'.value (.sem i) = s.kernel.value (.sem i))
    (hp : ∀ t, pending (.sem i) (k'.cont t) = pending (.sem i) (s.kernel.cont t)) : Inv i { s with kernel := k' } := by
  have hin : ∀ t, Inside { s with kernel := k' } i t ↔ s.Inside i t := by
    intro t
    show (s.pc t).Inside (pending (.sem i) (k'.cont t)) ↔ _
    rw [hp t]
    exact Iff.rfl
  refine ⟨hsane, h.valid, h.sema, fun t => ?_, fun t ht => h.fresh t (Nat.le_trans hnext ht), ?_, fun t ht => ?_,
    fun t u ht hu => h.single t u ((hin t).mp ht) ((hin u).mp hu)⟩
  · show (s.pc t).Orderly (.sem i) (pending (.sem i) (k'.cont t))
    rw [hp t]
    exact h.orderly t
  · exact Nat.le_trans (Nat.le_of_eq hv) h.value
  · exact hv.trans (h.taken t ((hin t).mp ht))

omit [ThreadQueues M] in
/-- A step of the running thread in the user library: it is inside afterwards only if it was before. -/
theorem move (h : s.Inv i) {pc pc' : LockPc} {lock : UserLock} {stmts : List Stmt}
    (hm : s.move pc pc' lock stmts = some s') (hlock : lock.sema = s.lock.sema) (hx : Formed stmts)
    (ho : pc'.Orderly (.sem i) (pending (.sem i) stmts))
    (hin : pc'.Inside (pending (.sem i) stmts) → pc.Inside []) : s'.Inv i := by
  obtain ⟨hidle, hc, hpc, rfl⟩ := move_eq hm
  have hself : (s.kernel.enter stmts).cont s.kernel.running = stmts := by
    rw [enter_self, hc, List.append_nil]
  have hwas : ∀ t, (Function.update s.pc s.kernel.running pc' t).Inside
      (pending (.sem i) ((s.kernel.enter stmts).cont t)) → s.Inside i t := by
    intro t ht
    unfold Inside
    by_cases htr : t = s.kernel.running
    · rw [htr, Function.update_self, hself] at ht
      rw [htr, hpc, hc]
      exact hin ht
    · rw [Function.update_of_ne htr, enter_others _ _ htr] at ht
      exact ht
  refine ⟨h.sane.enter hidle hc hx, ?_, ?_, fun t => ?_, fun t ht => ?_, h.value, fun t ht => h.taken t (hwas t ht),
    fun t u ht hu => h.single t u (hwas t ht) (hwas u hu)⟩
  · show s.table.Valid lock.sema
    rw [hlock]
    exact h.valid
  · show s.table.semtable + lock.sema.toNat = i
    rw [hlock]
    exact h.sema
  · show (Function.update s.pc s.kernel.running pc' t).Orderly (.sem i)
      (pending (.sem i) ((s.kernel.enter stmts).cont t))
    by_cases htr : t = s.kernel.running
    · rw [htr, Function.update_self, hself]
      exact ho
    · rw [Function.update_of_ne htr, enter_others _ _ htr]
      exact h.orderly t
  · show Function.update s.pc s.kernel.running pc' t = .outside
    have hne : t ≠ s.kernel.running := fun he => Nat.not_lt.mpr (he ▸ ht) h.sane.exists_running
    rw [Function.update_of_ne hne]
    exact h.fresh t ht

section
variable {k' : Kernel M} {stmt : Stmt} {xs : List Stmt}

theorem pending_others (h : s.Inv i) (he : s.kernel.Effect stmt xs k') {t : ℕ} (ht : t ≠ s.kernel.running) :
    pending (.sem i) (k'.cont t) = pending (.sem i) (s.kernel.cont t) :=
  he.pending_others ht fun hn => hn ▸ h.pending_new

/-- The other threads are where they were. -/
theorem inside_others (h : s.Inv i) (he : s.kernel.Effect stmt xs k') {t : ℕ} (ht : t ≠ s.kernel.running)
    (hin : Inside { s with kernel := k' } i t) : s.Inside i t := by
  unfold Inside at hin ⊢
  rwa [← h.pending_others he ht]

/-- What is to be shown about a statement of the running thread: about this thread, and about who is inside. -/
theorem of_running (h : s.Inv i) (hc : s.kernel.cont s.kernel.running = stmt :: xs)
    (he : s.kernel.Effect stmt xs k')
    (ho : (s.pc s.kernel.running).Orderly (.sem i) (pending (.sem i) (s.kernel.contAfter xs stmt)))
    (hv : k'.value (.sem i) ≤ 1) (htaken : ∀ t, Inside { s with kernel := k' } i t → k'.value (.sem i) = 0)
    (hsingle : ∀ t u, Inside { s with kernel := k' } i t → Inside { s with kernel := k' } i u → t = u) :
    Inv i { s with kernel := k' } := by
  refine ⟨he.sane h.sane hc, h.valid, h.sema, fun t => ?_, fun t ht => h.fresh t (Nat.le_trans he.nextTid ht), hv,
    htaken, hsingle⟩
  show (s.pc t).Orderly (.sem i) (pending (.sem i) (k'.cont t))
  by_cases ht : t = s.kernel.running
  · rw [ht, he.self]
    exact ho
  · rw [h.pending_others he ht]
    exact h.orderly t

/-- When the running thread is not inside afterwards, those who are inside were so before. -/
theorem inside_of_out (h : s.Inv i) (he : s.kernel.Effect stmt xs k')
    (hno : ¬ (s.pc s.kernel.running).Inside (pending (.sem i) (s.kernel.contAfter xs stmt))) {t : ℕ}
    (hin : Inside { s with kernel := k' } i t) : t ≠ s.kernel.running ∧ s.Inside i t := by
  have ht : t ≠ s.kernel.running := by
    rintro rfl
    apply hno
    rw [← he.self]
    exact hin
  exact ⟨ht, h.inside_others he ht hin⟩

/-- The thread waits: it does not come inside, and the value is as it was. -/
theorem waits (h : s.Inv i) (hc : s.kernel.cont s.kernel.running = stmt :: xs) (he : s.kernel.Effect stmt xs k')
    (hpc : s.pc s.kernel.running = .acquiring) (hv : s.kernel.valueAfter stmt (.sem i) = s.kernel.value (.sem i))
    (old : InterruptLevel) (hpend : pending (.sem i) (s.kernel.contAfter xs stmt) = [.decLoop (.sem i) 0 old]) :
    Inv i { s with kernel := k' } := by
  have hval : k'.value (.sem i) = s.kernel.value (.sem i) := by rw [he.value, hv]
  have hno : ¬ (s.pc s.kernel.running).Inside (pending (.sem i) (s.kernel.contAfter xs stmt)) := by
    rw [hpc, hpend]
    exact List.cons_ne_nil _ _
  refine h.of_running hc he ?_ (hval ▸ h.value) (fun t ht => hval.trans (h.taken t (h.inside_of_out he hno ht).2))
    fun t u ht hu => h.single t u (h.inside_of_out he hno ht).2 (h.inside_of_out he hno hu).2
  rw [hpend, hpc]
  exact .inr (.inl ⟨old, rfl⟩)

/-- The thread goes inside, where there is nobody. -/
theorem enters (h : s.Inv i) (hc : s.kernel.cont s.kernel.running = .semaphoreDec (.sem i) :: xs)
    (he : s.kernel.Effect (.semaphoreDec (.sem i)) xs k') (hpc : s.pc s.kernel.running = .acquiring)
    (hxs : pending (.sem i) xs = []) (hv : s.kernel.value (.sem i) ≠ 0) : Inv i { s with kernel := k' } := by
  have hcont : s.kernel.contAfter xs (.semaphoreDec (.sem i)) = xs := if_neg hv
  have hval : k'.value (.sem i) = 0 := by
    have hle := h.value
    rw [he.value, show s.kernel.valueAfter (.semaphoreDec (.sem i)) =
      Function.update s.kernel.value (.sem i) (s.kernel.value (.sem i) - 1) from if_neg hv, Function.update_self]
    omega
  have honly : ∀ t, Inside { s with kernel := k' } i t → t = s.kernel.running := by
    intro t ht
    by_contra hne
    exact hv (h.taken t (h.inside_others he hne ht))
  refine h.of_running hc he ?_ (by omega) (fun t _ => hval) fun t u ht hu => (honly t ht).trans (honly u hu).symm
  rw [hcont, hxs, hpc]
  exact .inr (.inr rfl)

/-- The thread that was inside leaves. -/
theorem leaves (h : s.Inv i) (hc : s.kernel.cont s.kernel.running = .semaphoreInc (.sem i) :: xs)
    (he : s.kernel.Effect (.semaphoreInc (.sem i)) xs k') (hpc : s.pc s.kernel.running = .leaving)
    (hxs : pending (.sem i) xs = []) : Inv i { s with kernel := k' } := by
  have hwas : s.Inside i s.kernel.running := by
    unfold Inside
    rw [hpc, hc, pending_cons_of_eq rfl]
    exact List.cons_ne_nil _ _
  have hval : k'.value (.sem i) = 1 := by
    have htaken := h.taken _ hwas
    rw [he.value]
    show Function.update s.kernel.value (.sem i) _ (.sem i) = 1
    rw [Function.update_self]
    omega
  have hpend : pending (.sem i) (s.kernel.contAfter xs (.semaphoreInc (.sem i))) = [] := hxs
  have hno : ¬ (s.pc s.kernel.running).Inside (pending (.sem i) (s.kernel.contAfter xs (.semaphoreInc (.sem i)))) := by
    rw [hpc, hpend]
    exact fun hne => hne rfl
  have hnone : ∀ t, ¬ Inside { s with kernel := k' } i t := by
    intro t ht
    obtain ⟨hne, hin⟩ := h.inside_of_out he hno ht
    exact hne (h.single _ _ hin hwas)
  refine h.of_running hc he ?_ hval.le (fun t ht => absurd ht (hnone t)) fun t _ ht => absurd ht (hnone t)
  rw [hpend, hpc]
  exact .inr rfl

/-- A statement of the running thread that uses the semaphore. -/
theorem uses (h : s.Inv i) (hc : s.kernel.cont s.kernel.running = stmt :: xs) (he : s.kernel.Effect stmt xs k')
    (hx : stmt.sema? = some (.sem i)) : Inv i { s with kernel := k' } := by
  have horder := h.orderly s.kernel.running
  rw [hc, pending_cons_of_eq hx] at horder
  obtain ⟨hxs, hstmt⟩ := horder.cons
  rcases hstmt with ⟨hpc, rfl | ⟨old, rfl⟩⟩ | ⟨hpc, rfl⟩
  · by_cases hv : s.kernel.value (.sem i) = 0
    · have hcont : s.kernel.contAfter xs (.semaphoreDec (.sem i)) = .decLoop (.sem i) 0 s.kernel.level :: xs := if_pos hv
      refine h.waits hc he hpc (congrFun (if_pos hv) _) s.kernel.level ?_
      rw [hcont, pending_cons_of_eq rfl, hxs]
    · exact h.enters hc he hpc hxs hv
  · have hcont : s.kernel.contAfter xs (.decLoop (.sem i) 0 old) = .decLoop (.sem i) 0 old :: xs := rfl
    refine h.waits hc he hpc rfl old ?_
    rw [hcont, pending_cons_of_eq rfl, hxs]
  · exact h.leaves hc he hpc hxs

end

/-- One statement of the running thread. -/
theorem run (h : s.Inv i) {k' : Kernel M} (hs : s.kernel.step .run = some k') : Inv i { s with kernel := k' } := by
  obtain ⟨stmt, xs, hc, he, -⟩ := run_effect h.sane hs
  by_cases hx : stmt.sema? = some (.sem i)
  · exact h.uses hc he hx
  · refine h.keep (he.sane h.sane hc) he.nextTid ?_ fun t => ?_
    · rw [he.value]
      exact s.kernel.valueAfter_of_ne hx
    · by_cases ht : t = s.kernel.running
      · rw [ht, he.self, hc, pending_cons_of_ne hx]
        exact pending_contAfter _ hx xs
      · exact he.pending_others ht fun hn => hn ▸ h.pending_new

omit [ThreadQueues M] in
theorem sinc_eq (h : s.Inv i) : sinc s.table s.lock.sema = [.semaphoreInc (.sem i)] := by
  unfold sinc
  rw [if_pos h.valid, ← h.sema]
  rfl

omit [ThreadQueues M] in
theorem sdec_eq (h : s.Inv i) : sdec s.table s.lock.sema = [.semaphoreDec (.sem i)] := by
  unfold sdec
  rw [if_pos h.valid, ← h.sema]
  rfl

/-- **One step**, of the kernel or of the user library. -/
theorem step (h : s.Inv i) {act : LockAction} (hok : s.LeavesAlone act) (hs : s.step act = some s') : s'.Inv i := by
  cases act with
  | kernel act =>
      cases act with
      | call op =>
          unfold LockUse.step at hs
          split_ifs at hs
          obtain ⟨k', hk, rfl⟩ := Option.map_eq_some_iff.mp hs
          obtain ⟨hidle, hc, rfl⟩ := step_call hk
          refine h.keep (h.sane.enter hidle hc op.formed) (Nat.le_refl _) rfl fun t => ?_
          by_cases ht : t = s.kernel.running
          · rw [ht, enter_self, hc, List.append_nil]
            exact pending_body (h.sema ▸ hok.1) (h.sema ▸ hok.2)
          · rw [enter_others _ _ ht]
      | run =>
          obtain ⟨k', hk, rfl⟩ := Option.map_eq_some_iff.mp hs
          exact h.run hk
      | interrupt =>
          obtain ⟨k', hk, rfl⟩ := Option.map_eq_some_iff.mp hs
          have hsw := yieldCurrent_switch (step_interrupt hk).2
          exact h.keep (h.sane.step hk) hsw.nextTid.ge (congrFun hsw.value _) (interrupt_pending hk _)
  | acquire =>
      refine h.move hs rfl ?_ ?_ ?_ <;> rw [h.sdec_eq]
      · exact .single trivial
      · exact .inl (pending_cons_of_eq rfl [])
      · rw [pending_cons_of_eq rfl]
        exact fun hin => absurd hin (List.cons_ne_nil _ _)
  | acquired => exact h.move hs rfl .nil rfl fun _ => rfl
  | release => exact h.move hs rfl .nil rfl fun _ => trivial
  | inc =>
      refine h.move hs rfl ?_ ?_ fun _ => trivial <;> rw [h.sinc_eq]
      · exact .single trivial
      · exact .inl (pending_cons_of_eq rfl [])
  | released => exact h.move hs rfl .nil rfl fun hin => hin.elim

end Inv

/-- A process whose threads begin to use a lock that has been set up. -/
def start (mem : M) (value : ℕ → ℕ) (level : InterruptLevel) (intr : Bool) (table : SemTable) (lock : UserLock)
    (pid : BitVec 32) : LockUse M where
  kernel := initThreads mem value level intr
  table := table
  lock := lock
  pid := pid
  pc _ := .outside

theorem inv_start (mem : M) (value : ℕ → ℕ) (level : InterruptLevel) (intr : Bool) {table : SemTable}
    {lock : UserLock} (pid : BitVec 32) (hid : table.Valid lock.sema)
    (hv : value (table.semtable + lock.sema.toNat) ≤ 1) :
    Inv (table.semtable + lock.sema.toNat) (start mem value level intr table lock pid) := by
  refine ⟨initThreads_sane mem value level intr, hid, rfl, initThreads_pending mem value level intr _, fun _ _ => rfl, ?_,
    fun t ht => ht.elim, fun t _ ht => ht.elim⟩
  show (initThreads mem value level intr).value (.sem _) ≤ 1
  rw [initThreads_value]
  exact hv

end LockUse

open LockUse

/-- **User locks exclude** when the id is in the table and the value of its semaphore is at most one at
the start: in every run in which nobody else uses the semaphore, at most one thread is between the return
of its `lock_acquire` and its call of `lock_release`. -/
theorem user_lock_mutual_exclusion {M : Type} [ThreadQueues M] {mem : M} {value : ℕ → ℕ} {level : InterruptLevel}
    {intr : Bool} {table : SemTable} {lock : UserLock} {pid : BitVec 32} (hid : table.Valid lock.sema)
    (hv : value (table.semtable + lock.sema.toNat) ≤ 1) {s : LockUse M}
    (h : Transition.Reach LockUse.step LeavesAlone (start mem value level intr table lock pid) s) {t u : ℕ}
    (ht : s.pc t = .holding) (hu : s.pc u = .holding) : t = u := by
  have hinv : s.Inv _ := h.invariant (inv_start mem value level intr pid hid hv) fun _ _ _ hi hok hs => hi.step hok hs
  refine hinv.single t u ?_ ?_
  · unfold Inside
    rw [ht]
    exact trivial
  · unfold Inside
    rw [hu]
    exact trivial

/-- Thread `2` takes the lock and is interrupted; thread `3` waits for it. -/
theorem user_lock_mutual_exclusion_contended :
    let mem : ListMem Queue ℕ := ⟨fun _ => .null, fun _ => .null, fun _ => 0⟩
    let acts : List LockAction := [.kernel (.call .createThread), .kernel .run, .kernel (.call .createThread),
      .kernel .run, .kernel (.call .exitThread), .kernel .run, .kernel .run, .acquire, .kernel .run, .acquired,
      .kernel .interrupt, .kernel .run, .acquire, .kernel .run]
    ∃ s, Transition.runs LockUse.step LeavesAlone (start mem (fun _ => 1) .enabled true
        (createSemTable 0 fun _ => 0) ⟨5, -1⟩ 7) acts = some s ∧
      s.pc 2 = .holding ∧ s.pc 3 = .acquiring ∧ ∀ t, s.pc t = .holding → t = 2 := by
  intro mem acts
  have hrun : (Transition.runs LockUse.step LeavesAlone (start mem (fun _ => 1) .enabled true
      (createSemTable 0 fun _ => 0) ⟨5, -1⟩ 7) acts).map (fun s => (s.pc 2, s.pc 3)) =
        some (.holding, .acquiring) := by
    decide +kernel
  obtain ⟨s, hs, he⟩ := Option.map_eq_some_iff.mp hrun
  obtain ⟨h₂, h₃⟩ := Prod.mk.injEq .. ▸ he
  exact ⟨s, hs, h₂, h₃, fun t ht =>
    user_lock_mutual_exclusion (by decide) (Nat.le_refl _) (.of_runs hs) ht h₂⟩

/-! ### An id that is not in the table -/

/-- `lock_init` gets the id `-1`, whatever `sget` and `sunget` were called for before. -/
theorem userLockInit_sema (semtable : ℕ) (words : ℕ → BitVec 64) (calls : List SemCall) :
    (userLockInit (calls.foldl SemHistory.step (SemHistory.start semtable words)).table).2.sema = -1 := by
  rw [SemHistory.run_start]
  exact congrArg Prod.snd ((createSemTable_clear semtable words).sget_eq 1)

/-- With an id that is not in the table, any thread takes the lock at once, whoever holds it. -/
theorem user_lock_unchecked {M : Type} [ThreadQueues M] {s : LockUse M} (hid : ¬ s.table.Valid s.lock.sema)
    (hidle : s.kernel.running ≠ s.kernel.idle) (hc : s.kernel.cont s.kernel.running = [])
    (hpc : s.pc s.kernel.running = .outside) :
    ∃ s', ((s.step .acquire).bind fun s => s.step .acquired) = some s' ∧ s'.pc s.kernel.running = .holding ∧
      ∀ t, t ≠ s.kernel.running → s'.pc t = s.pc t := by
  have hsdec : sdec s.table s.lock.sema = [] := if_neg hid
  have hc' : (s.kernel.enter []).cont s.kernel.running = [] := by
    rw [enter_self, hc]
    rfl
  have hacquire : s.step .acquire = some { s with
      kernel := s.kernel.enter [], pc := Function.update s.pc s.kernel.running .acquiring } := by
    rw [← hsdec]
    exact if_pos ⟨hidle, hc, hpc⟩
  have hacquired : LockUse.step { s with
      kernel := s.kernel.enter [], pc := Function.update s.pc s.kernel.running .acquiring } .acquired =
        some { s with
          kernel := (s.kernel.enter []).enter []
          lock := { s.lock with holder := s.pid }
          pc := Function.update (Function.update s.pc s.kernel.running .acquiring) s.kernel.running .holding } :=
    if_pos ⟨hidle, hc', Function.update_self ..⟩
  rw [hacquire, Option.bind_some, hacquired]
  refine ⟨_, rfl, Function.update_self .., fun t ht => ?_⟩
  exact (Function.update_of_ne ht _ _).trans (Function.update_of_ne ht _ _)

/-- Threads `2` and `3` both hold the lock that `lock_init` set up. -/
theorem user_lock_held_twice :
    let mem : ListMem Queue ℕ := ⟨fun _ => .null, fun _ => .null, fun _ => 0⟩
    let lock := userLockInit (createSemTable 0 fun _ => 0)
    ∃ s, Transition.Reach LockUse.step LeavesAlone (start mem (fun _ => 0) .enabled true lock.1 lock.2 7) s ∧
      s.pc 2 = .holding ∧ s.pc 3 = .holding := by
  intro mem lock
  have hrun : (Transition.runs LockUse.step LeavesAlone (start mem (fun _ => 0) .enabled true lock.1 lock.2 7)
      [.kernel (.call .createThread), .kernel .run, .kernel (.call .createThread), .kernel .run,
        .kernel (.call .exitThread), .kernel .run, .kernel .run, .acquire, .acquired, .kernel .interrupt,
        .kernel .run, .acquire, .acquired]).map (fun s => (s.pc 2, s.pc 3)) = some (.holding, .holding) := by
    decide +kernel
  obtain ⟨s, hs, he⟩ := Option.map_eq_some_iff.mp hrun
  obtain ⟨h₂, h₃⟩ := Prod.mk.injEq .. ▸ he
  exact ⟨s, .of_runs hs, h₂, h₃⟩

end Dunkos
