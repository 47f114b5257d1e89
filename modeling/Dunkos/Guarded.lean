import Dunkos.UserLock
import Dunkos.Lib.Serial
import Mathlib.Data.Fintype.Defs
import Mathlib.Logic.Embedding.Basic

/-! # Calls under kernel locks

A function of the kernel that works on an object does so between `lock_acquire` and `lock_release` of the lock of the
object.  `Guarded` is any number of threads that make such calls, over the kernel of `Thread.lean`: the kernel may switch
threads between any two micro-steps of a call.

`Guards` says of one lock who is between the two functions, as `LockUse.Inv` does for the locks of user programs.
`Guarded.Refines` is the simulation by `Serial`, where an object has one call at a time, and `Guarded.asIfAlone` what it
comes to: an object is as if its calls had been made alone. -/

namespace Dunkos

open Kernel ThreadQueues Transition

/-- The lock that a function is given. -/
def ThreadOp.lock? : ThreadOp → Option ℕ
  | lockAcquire l => some l
  | lockRelease l => some l
  | condvarWait _ l => some l
  | condvarSignalOne _ l => some l
  | condvarSignalAll _ l => some l
  | _ => none

/-! ### One lock -/

section
variable {M : Type} [ThreadQueues M] {k k' : Kernel M} {l : ℕ} {pc : ℕ → LockPc} {stmt : Stmt} {xs : List Stmt}

/-- The thread is between the `semaphore_dec` of `lock_acquire` and the `semaphore_inc` of `lock_release`. -/
def Within (l : ℕ) (k : Kernel M) (pc : ℕ → LockPc) (t : ℕ) : Prop :=
  (pc t).Inside (pending (.binary l) (k.cont t))

/-- Nobody but those at `pc` has anything pending on the lock; one thread at most is within, and none as long as the lock
is free. -/
structure Guards (l : ℕ) (k : Kernel M) (pc : ℕ → LockPc) : Prop where
  sane : k.Sane
  orderly : ∀ t, (pc t).Orderly (.binary l) (pending (.binary l) (k.cont t))
  unsignalled : ∀ t c, .signalAll c l ∉ k.cont t
  fresh : ∀ t, k.nextTid ≤ t → pc t = .outside
  value : k.value (.binary l) ≤ 1
  taken : ∀ t, Within l k pc t → k.value (.binary l) = 0
  single : ∀ t u, Within l k pc t → Within l k pc u → t = u

omit [ThreadQueues M] in
theorem pending_binary_body {op : ThreadOp} (h : op.lock? ≠ some l) : pending (.binary l) op.body = [] := by
  cases op with
  | lockAcquire m =>
      have hne : m ≠ l := fun he => h (congrArg some he)
      simp [pending, ThreadOp.body, Dunkos.lockAcquire, Stmt.sema?, hne]
  | lockRelease m =>
      have hne : m ≠ l := fun he => h (congrArg some he)
      simp [pending, ThreadOp.body, Dunkos.lockRelease, Stmt.sema?, hne]
  | condvarWait c m =>
      have hne : m ≠ l := fun he => h (congrArg some he)
      simp [pending, ThreadOp.body, condvarWait, Dunkos.lockAcquire, Dunkos.lockRelease, Stmt.sema?, hne]
  | condvarSignalOne c m =>
      have hne : m ≠ l := fun he => h (congrArg some he)
      simp [pending, ThreadOp.body, condvarSignalOne, Dunkos.lockAcquire, Dunkos.lockRelease, Stmt.sema?, hne]
  | _ => rfl

omit [ThreadQueues M] in
theorem unsignalled_body {op : ThreadOp} (h : op.lock? ≠ some l) (c : ℕ) : .signalAll c l ∉ op.body := by
  cases op with
  | condvarSignalAll c' m =>
      have hne : l ≠ m := fun he => h (congrArg some he.symm)
      simp [ThreadOp.body, condvarSignalAll, hne]
  | _ => simp [ThreadOp.body, condvarWait, condvarSignalOne, Dunkos.lockAcquire, Dunkos.lockRelease]

/-- What stands behind a statement that is not about the lock. -/
theorem pending_binary_contAfter (k : Kernel M) (h : stmt.sema? ≠ some (.binary l)) (hs : ∀ c, stmt ≠ .signalAll c l)
    (xs : List Stmt) : pending (.binary l) (k.contAfter xs stmt) = pending (.binary l) xs := by
  cases stmt with
  | semaphoreDec s =>
      show pending (.binary l) (if _ then _ else _) = _
      split_ifs
      · exact @pending_cons_of_ne _ (.decLoop s 0 k.level) h xs
      · rfl
  | decLoop s value old =>
      show pending (.binary l) (if _ then _ else _) = _
      split_ifs
      · exact pending_cons_of_ne h xs
      · rfl
  | signalAll c m =>
      have hne : m ≠ l := fun he => hs c (by rw [he])
      show pending (.binary l) (if _ then _ else _) = _
      split_ifs
      · rfl
      · simp [pending, condvarSignalOne, condvarSignalAll, Dunkos.lockAcquire, Dunkos.lockRelease, Stmt.sema?, hne]
  | _ => rfl

theorem unsignalled_contAfter (k : Kernel M) {c : ℕ} (h : .signalAll c l ∉ stmt :: xs) :
    .signalAll c l ∉ k.contAfter xs stmt := by
  rw [List.mem_cons, not_or] at h
  obtain ⟨hne, hxs⟩ := h
  cases stmt with
  | semaphoreDec s =>
      show _ ∉ (if _ then _ else _ : List Stmt)
      split_ifs
      · simpa using hxs
      · exact hxs
  | decLoop s value old =>
      show _ ∉ (if _ then _ else _ : List Stmt)
      split_ifs
      · simpa using hxs
      · exact hxs
  | signalAll c' m =>
      show _ ∉ (if _ then _ else _ : List Stmt)
      split_ifs
      · exact hxs
      · simpa [condvarSignalOne, condvarSignalAll, Dunkos.lockAcquire, Dunkos.lockRelease, hxs] using hne
  | _ => exact hxs

namespace Guards

omit [ThreadQueues M] in
/-- A thread has nothing pending before it exists. -/
theorem pending_new (h : Guards l k pc) : pending (.binary l) (k.cont k.nextTid) = [] := by
  have ho := h.orderly k.nextTid
  rw [h.fresh _ (Nat.le_refl _)] at ho
  exact ho

omit [ThreadQueues M] in
/-- Steps of the kernel that are not about the lock. -/
theorem keep (h : Guards l k pc) (hsane : k'.Sane) (hnext : k.nextTid ≤ k'.nextTid)
    (hv : k'.value (.binary l) = k.value (.binary l))
    (hp : ∀ t, pending (.binary l) (k'.cont t) = pending (.binary l) (k.cont t))
    (hs : ∀ t c, .signalAll c l ∉ k'.cont t) : Guards l k' pc := by
  have hin : ∀ t, Within l k' pc t ↔ Within l k pc t := by
    intro t
    unfold Within
    rw [hp t]
  refine ⟨hsane, fun t => ?_, hs, fun t ht => h.fresh t (Nat.le_trans hnext ht), hv ▸ h.value,
    fun t ht => hv.trans (h.taken t ((hin t).mp ht)), fun t u ht hu => h.single t u ((hin t).mp ht) ((hin u).mp hu)⟩
  rw [hp t]
  exact h.orderly t

omit [ThreadQueues M] in
/-- The running thread goes on to `p`, and runs `stmts` of the kernel next: it is within afterwards only if it was before. -/
theorem goes (h : Guards l k pc) (hidle : k.running ≠ k.idle) (hc : k.cont k.running = []) {p : LockPc} {stmts : List Stmt}
    (hx : Formed stmts) (ho : p.Orderly (.binary l) (pending (.binary l) stmts)) (hs : ∀ c, .signalAll c l ∉ stmts)
    (hin : p.Inside (pending (.binary l) stmts) → (pc k.running).Inside []) :
    Guards l (k.enter stmts) (Function.update pc k.running p) := by
  have hself : (k.enter stmts).cont k.running = stmts := by
    rw [enter_self, hc, List.append_nil]
  have hwas : ∀ t, Within l (k.enter stmts) (Function.update pc k.running p) t → Within l k pc t := by
    intro t ht
    unfold Within at ht ⊢
    rcases eq_or_ne t k.running with rfl | hne
    · rw [Function.update_self, hself] at ht
      rw [hc]
      exact hin ht
    · rwa [Function.update_of_ne hne, enter_others _ _ hne] at ht
  refine ⟨h.sane.enter hidle hc hx, fun t => ?_, fun t c => ?_, fun t ht => ?_, h.value, fun t ht => h.taken t (hwas t ht),
    fun t u ht hu => h.single t u (hwas t ht) (hwas u hu)⟩
  · rcases eq_or_ne t k.running with rfl | hne
    · rw [Function.update_self, hself]
      exact ho
    · rw [Function.update_of_ne hne, enter_others _ _ hne]
      exact h.orderly t
  · rcases eq_or_ne t k.running with rfl | hne
    · rw [hself]
      exact hs c
    · rw [enter_others _ _ hne]
      exact h.unsignalled t c
  · have hne : t ≠ k.running := fun he => Nat.not_lt.mpr (he ▸ ht) h.sane.exists_running
    rw [Function.update_of_ne hne]
    exact h.fresh t ht

/-- What the other threads have pending. -/
theorem pending_others (h : Guards l k pc) (he : k.Effect stmt xs k') {t : ℕ} (ht : t ≠ k.running) :
    pending (.binary l) (k'.cont t) = pending (.binary l) (k.cont t) :=
  he.pending_others ht fun hn => hn ▸ h.pending_new

theorem unsignalled_after (h : Guards l k pc) (hc : k.cont k.running = stmt :: xs) (he : k.Effect stmt xs k') (t c : ℕ) :
    .signalAll c l ∉ k'.cont t := by
  rcases eq_or_ne t k.running with rfl | ht
  · rw [he.self]
    exact unsignalled_contAfter k (hc ▸ h.unsignalled k.running c)
  · rcases he.others t ht with ho | ⟨-, ho⟩
    · rw [ho]
      exact h.unsignalled t c
    · rw [ho]
      simp

/-- What is to be shown about a statement of the running thread: about this thread, and about who is within. -/
theorem of_running (h : Guards l k pc) (hc : k.cont k.running = stmt :: xs) (he : k.Effect stmt xs k')
    (ho : (pc k.running).Orderly (.binary l) (pending (.binary l) (k.contAfter xs stmt))) (hv : k'.value (.binary l) ≤ 1)
    (hin : ∀ t, Within l k' pc t → k'.value (.binary l) = 0 ∧ (t = k.running ∨ Within l k pc t))
    (hself : Within l k' pc k.running → ∀ t, Within l k pc t → t = k.running) : Guards l k' pc := by
  refine ⟨he.sane h.sane hc, fun t => ?_, h.unsignalled_after hc he, fun t ht => h.fresh t (Nat.le_trans he.nextTid ht), hv,
    fun t ht => (hin t ht).1, fun t u ht hu => ?_⟩
  · rcases eq_or_ne t k.running with rfl | ht
    · rw [he.self]
      exact ho
    · rw [h.pending_others he ht]
      exact h.orderly t
  · rcases (hin t ht).2 with rfl | ht'
    · rcases (hin u hu).2 with rfl | hu'
      · rfl
      · exact (hself ht u hu').symm
    · rcases (hin u hu).2 with rfl | hu'
      · exact hself hu t ht'
      · exact h.single t u ht' hu'

/-- Another thread is within only if it was. -/
theorem within_others (h : Guards l k pc) (he : k.Effect stmt xs k') {t : ℕ} (ht : t ≠ k.running) (hin : Within l k' pc t) :
    Within l k pc t := by
  unfold Within at hin ⊢
  rwa [← h.pending_others he ht]

/-- The thread waits: it does not come within, and the value is as it was. -/
theorem waits (h : Guards l k pc) (hc : k.cont k.running = stmt :: xs) (he : k.Effect stmt xs k')
    (hpc : pc k.running = .acquiring) (hv : k.valueAfter stmt (.binary l) = k.value (.binary l)) (old : InterruptLevel)
    (hpend : pending (.binary l) (k.contAfter xs stmt) = [.decLoop (.binary l) 0 old]) : Guards l k' pc := by
  have hval : k'.value (.binary l) = k.value (.binary l) := by rw [he.value, hv]
  have hno : ¬ Within l k' pc k.running := by
    unfold Within
    rw [he.self, hpc, hpend]
    exact List.cons_ne_nil _ _
  refine h.of_running hc he ?_ (hval ▸ h.value) (fun t ht => ?_) fun hin => absurd hin hno
  · rw [hpend, hpc]
    exact .inr (.inl ⟨old, rfl⟩)
  · have hwas := h.within_others he (fun he => hno (he ▸ ht)) ht
    exact ⟨hval.trans (h.taken t hwas), .inr hwas⟩

/-- The thread comes within, where there is nobody. -/
theorem enters (h : Guards l k pc) (hc : k.cont k.running = .semaphoreDec (.binary l) :: xs)
    (he : k.Effect (.semaphoreDec (.binary l)) xs k') (hpc : pc k.running = .acquiring) (hxs : pending (.binary l) xs = [])
    (hv : k.value (.binary l) ≠ 0) : Guards l k' pc := by
  have hcont : k.contAfter xs (.semaphoreDec (.binary l)) = xs := if_neg hv
  have hnone : ∀ t, ¬ Within l k pc t := fun t ht => hv (h.taken t ht)
  have hval : k'.value (.binary l) = 0 := by
    have hle := h.value
    rw [he.value, show k.valueAfter (.semaphoreDec (.binary l)) =
      Function.update k.value (.binary l) (k.value (.binary l) - 1) from if_neg hv, Function.update_self]
    omega
  refine h.of_running hc he ?_ (by omega) (fun t ht => ⟨hval, .inl ?_⟩) fun _ t ht => absurd ht (hnone t)
  · rw [hcont, hxs, hpc]
    exact .inr (.inr rfl)
  · by_contra hne
    exact hnone t (h.within_others he hne ht)

/-- The thread that was within leaves. -/
theorem leaves (h : Guards l k pc) (hc : k.cont k.running = .semaphoreInc (.binary l) :: xs)
    (he : k.Effect (.semaphoreInc (.binary l)) xs k') (hpc : pc k.running = .leaving)
    (hxs : pending (.binary l) xs = []) : Guards l k' pc := by
  have hwas : Within l k pc k.running := by
    unfold Within
    rw [hpc, hc, pending_cons_of_eq rfl]
    exact List.cons_ne_nil _ _
  have hval : k'.value (.binary l) = 1 := by
    have htaken := h.taken _ hwas
    rw [he.value]
    show Function.update k.value (.binary l) _ (.binary l) = 1
    rw [Function.update_self]
    omega
  have hpend : pending (.binary l) (k.contAfter xs (.semaphoreInc (.binary l))) = [] := hxs
  have hnone : ∀ t, ¬ Within l k' pc t := by
    intro t ht
    rcases eq_or_ne t k.running with rfl | hne
    · unfold Within at ht
      rw [he.self, hpc, hpend] at ht
      exact ht rfl
    · exact hne (h.single _ _ (h.within_others he hne ht) hwas)
  refine h.of_running hc he ?_ hval.le (fun t ht => absurd ht (hnone t)) fun hin => absurd hin (hnone _)
  rw [hpend, hpc]
  exact .inr rfl

/-- A statement of the running thread that uses the lock. -/
theorem uses (h : Guards l k pc) (hc : k.cont k.running = stmt :: xs) (he : k.Effect stmt xs k')
    (hx : stmt.sema? = some (.binary l)) : Guards l k' pc := by
  have horder := h.orderly k.running
  rw [hc, pending_cons_of_eq hx] at horder
  obtain ⟨hxs, ⟨hpc, rfl | ⟨old, rfl⟩⟩ | ⟨hpc, rfl⟩⟩ := horder.cons
  · by_cases hv : k.value (.binary l) = 0
    · have hcont : k.contAfter xs (.semaphoreDec (.binary l)) = .decLoop (.binary l) 0 k.level :: xs := if_pos hv
      refine h.waits hc he hpc (congrFun (if_pos hv) _) k.level ?_
      rw [hcont, pending_cons_of_eq rfl, hxs]
    · exact h.enters hc he hpc hxs hv
  · have hcont : k.contAfter xs (.decLoop (.binary l) 0 old) = .decLoop (.binary l) 0 old :: xs := rfl
    refine h.waits hc he hpc rfl old ?_
    rw [hcont, pending_cons_of_eq rfl, hxs]
  · exact h.leaves hc he hpc hxs

/-- **One step of the kernel**, when no other function is called on the lock. -/
theorem step (h : Guards l k pc) {act : Action} (hok : ∀ op, act = .call op → op.lock? ≠ some l)
    (hs : k.step act = some k') : Guards l k' pc := by
  cases act with
  | call op =>
      obtain ⟨hidle, hc, rfl⟩ := step_call hs
      have hlock := hok op rfl
      refine h.keep (h.sane.enter hidle hc op.formed) (Nat.le_refl _) rfl (fun t => ?_) fun t c => ?_
      · rcases eq_or_ne t k.running with rfl | ht
        · rw [enter_self, hc, List.append_nil]
          exact pending_binary_body hlock
        · rw [enter_others _ _ ht]
      · rcases eq_or_ne t k.running with rfl | ht
        · rw [enter_self, hc, List.append_nil]
          exact unsignalled_body hlock c
        · rw [enter_others _ _ ht]
          exact h.unsignalled t c
  | run =>
      obtain ⟨stmt, xs, hc, he, -⟩ := run_effect h.sane hs
      by_cases hx : stmt.sema? = some (.binary l)
      · exact h.uses hc he hx
      · refine h.keep (he.sane h.sane hc) he.nextTid ?_ (fun t => ?_) (h.unsignalled_after hc he)
        · rw [he.value]
          exact k.valueAfter_of_ne hx
        · rcases eq_or_ne t k.running with rfl | ht
          · have hns : ∀ c, stmt ≠ .signalAll c l := by
              rintro c rfl
              exact h.unsignalled k.running c (hc ▸ List.mem_cons_self)
            rw [he.self, hc, pending_cons_of_ne hx]
            exact pending_binary_contAfter k hx hns xs
          · exact h.pending_others he ht
  | interrupt =>
      have hsw := yieldCurrent_switch (step_interrupt hs).2
      refine h.keep (h.sane.step hs) hsw.nextTid.ge (congrFun hsw.value _) (interrupt_pending hs _) fun t c => ?_
      rw [hsw.cont]
      rcases eq_or_ne t k.running with rfl | ht
      · rw [show (k.disableInterrupts.enter [.isrReturn k.level]).cont k.running = .isrReturn k.level :: k.cont k.running from
          enter_self k.disableInterrupts _]
        simpa using h.unsignalled k.running c
      · rw [enter_others k.disableInterrupts _ ht]
        exact h.unsignalled t c

theorem start (mem : M) (value : ℕ → ℕ) (level : InterruptLevel) (intr : Bool) (l : ℕ) :
    Guards l (initThreads mem value level intr) fun _ => .outside := by
  refine ⟨initThreads_sane mem value level intr, initThreads_pending mem value level intr _,
    fun t c => initThreads_not_mem mem value level intr (by simp) t, fun _ _ => rfl, ?_, fun t ht => ht.elim,
    fun t _ ht => ht.elim⟩
  unfold initThreads
  rw [threadUnblock_eq]
  exact Nat.le_refl 1

end Guards

end

/-! ### Threads that make calls -/

/-- Where a thread is in a call: in `lock_acquire`, at a micro-step, or in `lock_release`. -/
inductive CallPlace {C K D V F : Type} {view : K → D → V} (call : C → Serial.Call view F) where
  | outside
  | acquiring (c : C)
  | inside (c : C) (f : F) (ms : List (Serial.Micro view F (call c).object))
  | leaving (c : C) (f : F)

inductive GuardedAction (C : Type) where
  | kernel (act : Action)
  | enter (c : C)
  | begin
  | micro
  | finish
  | leave

/-- `calls` are those that have got the lock of the object, in this order, and `results` the frames of those that have
come to `lock_release`. -/
structure Guarded (M : Type) {C K D V F : Type} {view : K → D → V} (call : C → Serial.Call view F) where
  kernel : Kernel M
  mem : D
  place : ℕ → CallPlace call
  calls : K → List C
  results : K → List F

variable {M : Type} [ThreadQueues M] {C K D V F : Type} {view : K → D → V} {call : C → Serial.Call view F} [DecidableEq K]

def CallPlace.pc (k : K) : CallPlace call → LockPc
  | outside => .outside
  | acquiring c => if (call c).object = k then .acquiring else .outside
  | inside c _ _ => if (call c).object = k then .holding else .outside
  | leaving c _ => if (call c).object = k then .leaving else .outside

namespace CallPlace
variable {c : C} {f : F} {ms : List (Serial.Micro view F (call c).object)} {k : K}

@[simp] theorem pc_acquiring : (acquiring c : CallPlace call).pc (call c).object = .acquiring := if_pos rfl

@[simp] theorem pc_inside : (inside c f ms).pc (call c).object = .holding := if_pos rfl

@[simp] theorem pc_leaving : (leaving c f : CallPlace call).pc (call c).object = .leaving := if_pos rfl

/-- A call is nowhere in the locks of other objects. -/
theorem pc_acquiring_of_ne (h : (call c).object ≠ k) : (acquiring c : CallPlace call).pc k = .outside := if_neg h

theorem pc_inside_of_ne (h : (call c).object ≠ k) : (inside c f ms).pc k = .outside := if_neg h

theorem pc_leaving_of_ne (h : (call c).object ≠ k) : (leaving c f : CallPlace call).pc k = .outside := if_neg h

end CallPlace

namespace Guarded
variable (lock : K ↪ ℕ) (s : Guarded M call)

/-- The running thread goes on to `p`, and runs `stmts` of the kernel next. -/
def goes (p : CallPlace call) (stmts : List Stmt) : Option (Guarded M call) :=
  if s.kernel.running ≠ s.kernel.idle ∧ s.kernel.cont s.kernel.running = [] then
    some { s with
      kernel := s.kernel.enter stmts
      place := Function.update s.place s.kernel.running p }
  else none

/-- Other functions of the kernel are called from outside of these calls. -/
def step : GuardedAction C → Option (Guarded M call)
  | .kernel (.call op) =>
      match s.place s.kernel.running with
      | .outside => (s.kernel.step (.call op)).map fun k => { s with kernel := k }
      | _ => none
  | .kernel act => (s.kernel.step act).map fun k => { s with kernel := k }
  | .enter c =>
      match s.place s.kernel.running with
      | .outside => s.goes (.acquiring c) (lockAcquire (lock (call c).object))
      | _ => none
  | .begin =>
      match s.place s.kernel.running with
      | .acquiring c => (s.goes (.inside c (call c).frame (call c).body) []).map fun s =>
          { s with calls := Function.update s.calls (call c).object (s.calls (call c).object ++ [c]) }
      | _ => none
  | .micro =>
      match s.place s.kernel.running with
      | .inside c f (m :: ms) => (s.goes (.inside c (m.run (s.mem, f)).2 ms) []).map fun s' =>
          { s' with mem := (m.run (s.mem, f)).1 }
      | _ => none
  | .finish =>
      match s.place s.kernel.running with
      | .inside c f [] => (s.goes (.leaving c f) (lockRelease (lock (call c).object))).map fun s =>
          { s with results := Function.update s.results (call c).object (s.results (call c).object ++ [f]) }
      | _ => none
  | .leave =>
      match s.place s.kernel.running with
      | .leaving _ _ => s.goes .outside []
      | _ => none

/-- Nobody else uses the locks of the objects. -/
def LeavesAlone (_ : Guarded M call) : GuardedAction C → Prop
  | .kernel (.call op) => ∀ k, op.lock? ≠ some (lock k)
  | _ => True

instance [Fintype K] (act : GuardedAction C) : Decidable (s.LeavesAlone lock act) := by
  unfold LeavesAlone
  split <;> infer_instance

/-- No thread is in a call. -/
def start (mem : M) (value : ℕ → ℕ) (level : InterruptLevel) (intr : Bool) (d : D) : Guarded M call where
  kernel := initThreads mem value level intr
  mem := d
  place _ := .outside
  calls _ := []
  results _ := []

/-! ### What a step does -/

variable {lock} {s} {s' : Guarded M call} {p : CallPlace call} {stmts : List Stmt}

omit [ThreadQueues M] [DecidableEq K] in
theorem goes_eq (h : s.goes p stmts = some s') : s.kernel.running ≠ s.kernel.idle ∧ s.kernel.cont s.kernel.running = [] ∧
    s' = { s with
      kernel := s.kernel.enter stmts
      place := Function.update s.place s.kernel.running p } := by
  unfold goes at h
  split_ifs at h with hg
  exact ⟨hg.1, hg.2, (Option.some.inj h).symm⟩

/-- A step of the kernel; or one of the running thread, from its place `p` to `p'`, which runs `stmts` next. -/
theorem step_kernel {act : Action} (h : s.step lock (.kernel act) = some s') :
    ∃ k, s.kernel.step act = some k ∧ s' = { s with kernel := k } := by
  cases act with
  | call op =>
      unfold step at h
      cases hp : s.place s.kernel.running with
      | outside =>
          simp only [hp] at h
          obtain ⟨k, hk, rfl⟩ := Option.map_eq_some_iff.mp h
          exact ⟨k, hk, rfl⟩
      | _ => simp [hp] at h
  | run =>
      obtain ⟨k, hk, rfl⟩ := Option.map_eq_some_iff.mp h
      exact ⟨k, hk, rfl⟩
  | interrupt =>
      obtain ⟨k, hk, rfl⟩ := Option.map_eq_some_iff.mp h
      exact ⟨k, hk, rfl⟩

theorem step_enter {c : C} (h : s.step lock (.enter c) = some s') : s.place s.kernel.running = .outside ∧
    s.goes (.acquiring c) (lockAcquire (lock (call c).object)) = some s' := by
  cases hp : s.place s.kernel.running with
  | outside => exact ⟨rfl, by simpa [step, hp] using h⟩
  | _ => simp [step, hp] at h

theorem step_begin (h : s.step lock .begin = some s') : ∃ c s₁, s.place s.kernel.running = .acquiring c ∧
    s.goes (.inside c (call c).frame (call c).body) [] = some s₁ ∧
      s' = { s₁ with calls := Function.update s₁.calls (call c).object (s₁.calls (call c).object ++ [c]) } := by
  cases hp : s.place s.kernel.running with
  | acquiring c =>
      simp only [step, hp] at h
      obtain ⟨s₁, hs, rfl⟩ := Option.map_eq_some_iff.mp h
      exact ⟨c, s₁, rfl, hs, rfl⟩
  | _ => simp [step, hp] at h

theorem step_micro (h : s.step lock .micro = some s') : ∃ c f m ms s₁, s.place s.kernel.running = .inside c f (m :: ms) ∧
    s.goes (.inside c (m.run (s.mem, f)).2 ms) [] = some s₁ ∧ s' = { s₁ with mem := (m.run (s.mem, f)).1 } := by
  match hp : s.place s.kernel.running with
  | .inside c f (m :: ms) =>
      simp only [step, hp] at h
      obtain ⟨s₁, hs, rfl⟩ := Option.map_eq_some_iff.mp h
      exact ⟨c, f, m, ms, s₁, rfl, hs, rfl⟩
  | .inside c f [] => simp [step, hp] at h
  | .outside => simp [step, hp] at h
  | .acquiring c => simp [step, hp] at h
  | .leaving c f => simp [step, hp] at h

theorem step_finish (h : s.step lock .finish = some s') : ∃ c f s₁, s.place s.kernel.running = .inside c f [] ∧
    s.goes (.leaving c f) (lockRelease (lock (call c).object)) = some s₁ ∧
      s' = { s₁ with results := Function.update s₁.results (call c).object (s₁.results (call c).object ++ [f]) } := by
  match hp : s.place s.kernel.running with
  | .inside c f [] =>
      simp only [step, hp] at h
      obtain ⟨s₁, hs, rfl⟩ := Option.map_eq_some_iff.mp h
      exact ⟨c, f, s₁, rfl, hs, rfl⟩
  | .inside c f (m :: ms) => simp [step, hp] at h
  | .outside => simp [step, hp] at h
  | .acquiring c => simp [step, hp] at h
  | .leaving c f => simp [step, hp] at h

theorem step_leave (h : s.step lock .leave = some s') : ∃ c f, s.place s.kernel.running = .leaving c f ∧
    s.goes .outside [] = some s' := by
  cases hp : s.place s.kernel.running with
  | leaving c f => exact ⟨c, f, rfl, by simpa [step, hp] using h⟩
  | _ => simp [step, hp] at h

/-! ### One call at a time -/

/-- Every lock is guarded, and `a` has the call of the thread that is inside. -/
structure Refines (lock : K ↪ ℕ) (s : Guarded M call) (a : Serial.State view F) : Prop where
  guards : ∀ k, Guards (lock k) s.kernel fun t => (s.place t).pc k
  mem : a.mem = s.mem
  calls : ∀ k, a.calls k = (s.calls k).map call
  results : a.results = s.results
  inside : ∀ {t c f ms}, s.place t = .inside c f ms → a.active (call c).object = some (f, ms)
  active : ∀ {k p}, a.active k = some p → ∃ t c f ms, s.place t = .inside c f ms ∧ (call c).object = k

variable {a : Serial.State view F} {c : C} {f : F} {ms : List (Serial.Micro view F (call c).object)}

omit [ThreadQueues M] in
theorem guards_goes (h : ∀ k, Guards (lock k) s.kernel fun t => (s.place t).pc k) (hg : s.goes p stmts = some s')
    (hx : Formed stmts) (hs : ∀ l c, .signalAll c l ∉ stmts)
    (ho : ∀ k, (p.pc k).Orderly (.binary (lock k)) (pending (.binary (lock k)) stmts))
    (hin : ∀ k, (p.pc k).Inside (pending (.binary (lock k)) stmts) → ((s.place s.kernel.running).pc k).Inside []) (k : K) :
    Guards (lock k) s'.kernel fun t => (s'.place t).pc k := by
  obtain ⟨hidle, hc, rfl⟩ := goes_eq hg
  have hpc : (fun t => (Function.update s.place s.kernel.running p t).pc k) =
      Function.update (fun t => (s.place t).pc k) s.kernel.running (p.pc k) := by
    funext t
    exact Function.apply_update (fun _ q => CallPlace.pc k q) s.place s.kernel.running p t
  show Guards (lock k) (s.kernel.enter stmts) fun t => (Function.update s.place s.kernel.running p t).pc k
  rw [hpc]
  exact (h k).goes hidle hc hx (ho k) (hs (lock k)) (hin k)

omit [ThreadQueues M] in
/-- A thread at a micro-step is within the lock of the object. -/
theorem within_inside {t : ℕ} (ht : s.place t = .inside c f ms) :
    Within (lock (call c).object) s.kernel (fun t => (s.place t).pc (call c).object) t := by
  unfold Within
  dsimp only
  rw [ht, CallPlace.pc_inside]
  trivial

omit [ThreadQueues M] in
/-- The running thread, within the lock of the object, comes to a micro-step. -/
theorem guards_inside (h : ∀ k, Guards (lock k) s.kernel fun t => (s.place t).pc k)
    (hg : s.goes (.inside c f ms) [] = some s')
    (hr : Within (lock (call c).object) s.kernel (fun t => (s.place t).pc (call c).object) s.kernel.running) (k : K) :
    Guards (lock k) s'.kernel fun t => (s'.place t).pc k := by
  refine guards_goes h hg .nil (fun l c => by simp) (fun k => ?_) (fun k hk => ?_) k
  · rcases eq_or_ne (call c).object k with rfl | hne
    · rw [CallPlace.pc_inside]
      rfl
    · rw [CallPlace.pc_inside_of_ne hne]
      rfl
  · rcases eq_or_ne (call c).object k with rfl | hne
    · unfold Within at hr
      rwa [(goes_eq hg).2.1] at hr
    · rw [CallPlace.pc_inside_of_ne hne] at hk
      exact hk.elim

omit [ThreadQueues M] in
/-- Behind its `lock_acquire` a thread is alone with the object. -/
theorem Refines.alone (h : s.Refines lock a) {t : ℕ} (ht : s.place t = .inside c f ms)
    (hr : Within (lock (call c).object) s.kernel (fun t => (s.place t).pc (call c).object) s.kernel.running) :
    t = s.kernel.running :=
  (h.guards (call c).object).single t _ (within_inside ht) hr

omit [ThreadQueues M] in
theorem pending_lockAcquire (l : ℕ) (x : Sema) :
    pending x (lockAcquire l) = if x = .binary l then [.semaphoreDec (.binary l)] else [] := by
  split_ifs with hx
  · subst hx
    simp [pending, lockAcquire, Stmt.sema?]
  · simp [pending, lockAcquire, Stmt.sema?, Ne.symm hx]

omit [ThreadQueues M] in
theorem pending_lockRelease (l : ℕ) (x : Sema) :
    pending x (lockRelease l) = if x = .binary l then [.semaphoreInc (.binary l)] else [] := by
  split_ifs with hx
  · subst hx
    simp [pending, lockRelease, Stmt.sema?]
  · simp [pending, lockRelease, Stmt.sema?, Ne.symm hx]

namespace Refines

theorem kernel (h : s.Refines lock a) {act : Action} (hok : s.LeavesAlone lock (.kernel act))
    (hs : s.step lock (.kernel act) = some s') : s'.Refines lock a := by
  obtain ⟨k', hk, rfl⟩ := step_kernel hs
  refine ⟨fun k => (h.guards k).step (fun op hop => ?_) hk, h.mem, h.calls, h.results, h.inside, h.active⟩
  subst hop
  exact hok k

omit [ThreadQueues M] in
/-- The running thread comes to a place that is not inside, from one that was not. -/
theorem outside (h : s.Refines lock a) (hg : s.goes p stmts = some s')
    (hguards : ∀ k, Guards (lock k) s'.kernel fun t => (s'.place t).pc k) (hp : ∀ c f ms, p ≠ .inside c f ms)
    (hr : ∀ c f ms, s.place s.kernel.running ≠ .inside c f ms) : s'.Refines lock a := by
  obtain ⟨-, -, rfl⟩ := goes_eq hg
  refine ⟨hguards, h.mem, h.calls, h.results, fun {t c f ms} ht => ?_, fun {k q} hq => ?_⟩
  · rcases eq_or_ne t s.kernel.running with rfl | hne
    · exact absurd ((Function.update_self ..).symm.trans ht) (hp c f ms)
    · exact h.inside ((Function.update_of_ne hne _ _).symm.trans ht)
  · obtain ⟨t, c, f, ms, ht, hk⟩ := h.active hq
    have hne : t ≠ s.kernel.running := fun he => hr c f ms (he ▸ ht)
    exact ⟨t, c, f, ms, (Function.update_of_ne hne _ _).trans ht, hk⟩

theorem enter (h : s.Refines lock a) (hs : s.step lock (.enter c) = some s') : s'.Refines lock a := by
  obtain ⟨hp, hg⟩ := step_enter hs
  refine h.outside hg (guards_goes h.guards hg (.acquire .done) (fun l c => by simp [lockAcquire]) (fun k => ?_) fun k => ?_)
    (fun _ _ _ => nofun) (fun _ _ _ he => nomatch hp.symm.trans he)
  · rw [pending_lockAcquire]
    rcases eq_or_ne (call c).object k with rfl | hk
    · rw [if_pos rfl, CallPlace.pc_acquiring]
      exact .inl rfl
    · have hl : (.binary (lock k) : Sema) ≠ .binary (lock (call c).object) := by simpa using hk.symm
      rw [if_neg hl, CallPlace.pc_acquiring_of_ne hk]
      rfl
  · rw [pending_lockAcquire]
    rcases eq_or_ne (call c).object k with rfl | hk
    · rw [if_pos rfl, CallPlace.pc_acquiring]
      exact fun hin => absurd hin (List.cons_ne_nil _ _)
    · rw [CallPlace.pc_acquiring_of_ne hk]
      exact False.elim

theorem leave (h : s.Refines lock a) (hs : s.step lock .leave = some s') : s'.Refines lock a := by
  obtain ⟨c, f, hp, hg⟩ := step_leave hs
  exact h.outside hg (guards_goes h.guards hg .nil (fun l c => by simp) (fun _ => rfl) fun _ => False.elim)
    (fun _ _ _ => nofun) (fun _ _ _ he => nomatch hp.symm.trans he)

omit [ThreadQueues M] in
/-- The object of a thread that is inside is not that of the running thread, when this is within its lock. -/
theorem object_ne (h : s.Refines lock a)
    (hr : Within (lock (call c).object) s.kernel (fun t => (s.place t).pc (call c).object) s.kernel.running) {t : ℕ}
    (ht : t ≠ s.kernel.running) {c' : C} {f : F} {ms : List (Serial.Micro view F (call c').object)}
    (hp : s.place t = .inside c' f ms) : (call c').object ≠ (call c).object := by
  intro he
  rw [← he] at hr
  exact ht (h.alone hp hr)

omit [ThreadQueues M] in
/-- The running thread, alone with the object of `c`, comes to a micro-step of `c`. -/
theorem busy (h : s.Refines lock a) (hg : s.goes (.inside c f ms) stmts = some s')
    (hr : Within (lock (call c).object) s.kernel (fun t => (s.place t).pc (call c).object) s.kernel.running)
    (hw : ∀ c' f ms, s.place s.kernel.running = .inside c' f ms → (call c').object = (call c).object) :
    (∀ {t c' f' ms'}, s'.place t = .inside c' f' ms' →
      Function.update a.active (call c).object (some (f, ms)) (call c').object = some (f', ms')) ∧
    ∀ {k q}, Function.update a.active (call c).object (some (f, ms)) k = some q →
      ∃ t c' f' ms', s'.place t = .inside c' f' ms' ∧ (call c').object = k := by
  obtain ⟨-, -, rfl⟩ := goes_eq hg
  refine ⟨fun {t c' f' ms'} ht => ?_, fun {k q} hq => ?_⟩
  · rcases eq_or_ne t s.kernel.running with rfl | hne
    · cases (Function.update_self ..).symm.trans ht
      exact Function.update_self ..
    · have ht' : s.place t = .inside c' f' ms' := (Function.update_of_ne hne _ _).symm.trans ht
      rw [Function.update_of_ne (h.object_ne hr hne ht')]
      exact h.inside ht'
  · rcases eq_or_ne k (call c).object with rfl | hk
    · exact ⟨s.kernel.running, c, f, ms, Function.update_self .., rfl⟩
    · obtain ⟨t, c', f', ms', ht, rfl⟩ := h.active ((Function.update_of_ne hk _ _).symm.trans hq)
      have hne : t ≠ s.kernel.running := fun he => hk (hw c' f' ms' (he ▸ ht))
      exact ⟨t, c', f', ms', (Function.update_of_ne hne _ _).trans ht, rfl⟩

omit [ThreadQueues M] in
/-- It comes to the end of `c`. -/
theorem done (h : s.Refines lock a) (hg : s.goes p stmts = some s') (hp : ∀ c f ms, p ≠ .inside c f ms)
    (hr : s.place s.kernel.running = .inside c f ms) :
    (∀ {t c' f' ms'}, s'.place t = .inside c' f' ms' →
      Function.update a.active (call c).object none (call c').object = some (f', ms')) ∧
    ∀ {k q}, Function.update a.active (call c).object none k = some q →
      ∃ t c' f' ms', s'.place t = .inside c' f' ms' ∧ (call c').object = k := by
  obtain ⟨-, -, rfl⟩ := goes_eq hg
  refine ⟨fun {t c' f' ms'} ht => ?_, fun {k q} hq => ?_⟩
  · rcases eq_or_ne t s.kernel.running with rfl | hne
    · exact absurd ((Function.update_self ..).symm.trans ht) (hp c' f' ms')
    · have ht' : s.place t = .inside c' f' ms' := (Function.update_of_ne hne _ _).symm.trans ht
      rw [Function.update_of_ne (h.object_ne (within_inside hr) hne ht')]
      exact h.inside ht'
  · rcases eq_or_ne k (call c).object with rfl | hk
    · cases (Function.update_self ..).symm.trans hq
    · obtain ⟨t, c', f', ms', ht, rfl⟩ := h.active ((Function.update_of_ne hk _ _).symm.trans hq)
      have hne : t ≠ s.kernel.running := by
        rintro rfl
        cases hr.symm.trans ht
        exact hk rfl
      exact ⟨t, c', f', ms', (Function.update_of_ne hne _ _).trans ht, rfl⟩

/-- The running thread has got the lock of the object, which no call has. -/
theorem begin (h : s.Refines lock a) (hs : s.step lock .begin = some s') :
    ∃ c a', a.step (.begin (call c)) = some a' ∧ s'.Refines lock a' := by
  obtain ⟨c, s₁, hp, hg, rfl⟩ := step_begin hs
  have hr : Within (lock (call c).object) s.kernel (fun t => (s.place t).pc (call c).object) s.kernel.running := by
    unfold Within
    dsimp only
    rw [hp, (goes_eq hg).2.1, CallPlace.pc_acquiring]
    rfl
  have hnone : a.active (call c).object = none := by
    by_contra hsome
    obtain ⟨q, hq⟩ := Option.ne_none_iff_exists'.mp hsome
    obtain ⟨t, c', f, ms, ht, hobj⟩ := h.active hq
    have hne : t ≠ s.kernel.running := by
      rintro rfl
      cases hp.symm.trans ht
    exact h.object_ne hr hne ht hobj
  obtain ⟨hin, hact⟩ := h.busy hg hr fun c' f ms he => nomatch hp.symm.trans he
  have hguards := guards_inside h.guards hg hr
  obtain ⟨-, -, rfl⟩ := goes_eq hg
  refine ⟨c, { a with
    active := Function.update a.active (call c).object (some ((call c).frame, (call c).body))
    calls := Function.update a.calls (call c).object (a.calls (call c).object ++ [call c]) },
    by simp [Serial.State.step, hnone], ?_⟩
  refine ⟨hguards, h.mem, fun k => ?_, h.results, hin, hact⟩
  show Function.update a.calls _ _ k = (Function.update s.calls _ _ k).map call
  rcases eq_or_ne k (call c).object with rfl | hk
  · rw [Function.update_self, Function.update_self, List.map_append, h.calls]
    rfl
  · rw [Function.update_of_ne hk, Function.update_of_ne hk, h.calls]

/-- A micro-step of the running thread is one of the call on the object. -/
theorem micro (h : s.Refines lock a) (hs : s.step lock .micro = some s') :
    ∃ k a', a.step (.micro k) = some a' ∧ s'.Refines lock a' := by
  obtain ⟨c, f, m, ms, s₁, hp, hg, rfl⟩ := step_micro hs
  have hactive := h.inside hp
  obtain ⟨hin, hact⟩ := h.busy hg (within_inside hp) fun c' f' ms' he => by
    cases hp.symm.trans he
    rfl
  have hguards := guards_inside h.guards hg (within_inside hp)
  obtain ⟨-, -, rfl⟩ := goes_eq hg
  refine ⟨(call c).object, { a with
    mem := (m.run (a.mem, f)).1
    active := Function.update a.active (call c).object (some ((m.run (a.mem, f)).2, ms)) },
    by simp [Serial.State.step, hactive], ?_⟩
  rw [h.mem]
  exact ⟨hguards, rfl, h.calls, h.results, hin, hact⟩

theorem finish (h : s.Refines lock a) (hs : s.step lock .finish = some s') :
    ∃ k a', a.step (.finish k) = some a' ∧ s'.Refines lock a' := by
  obtain ⟨c, f, s₁, hp, hg, rfl⟩ := step_finish hs
  have hactive := h.inside hp
  obtain ⟨hin, hact⟩ := h.done hg (fun _ _ _ => nofun) hp
  have hguards := guards_goes h.guards hg (.release .done) (fun l c => by simp [lockRelease]) (fun k => ?_) fun k hk => ?_
  · obtain ⟨-, -, rfl⟩ := goes_eq hg
    refine ⟨(call c).object, { a with
      active := Function.update a.active (call c).object none
      results := Function.update a.results (call c).object (a.results (call c).object ++ [f]) },
      by simp [Serial.State.step, hactive], ?_⟩
    exact ⟨hguards, h.mem, h.calls, by rw [h.results], hin, hact⟩
  · rw [pending_lockRelease]
    rcases eq_or_ne (call c).object k with rfl | hk
    · rw [if_pos rfl, CallPlace.pc_leaving]
      exact .inl rfl
    · have hl : (.binary (lock k) : Sema) ≠ .binary (lock (call c).object) := by simpa using hk.symm
      rw [if_neg hl, CallPlace.pc_leaving_of_ne hk]
      rfl
  · rcases eq_or_ne (call c).object k with rfl | hne
    · rw [hp, CallPlace.pc_inside]
      trivial
    · rw [CallPlace.pc_leaving_of_ne hne] at hk
      exact hk.elim

/-- **One step** of a thread is none or one of the calls. -/
theorem step (h : s.Refines lock a) {act : GuardedAction C} (hok : s.LeavesAlone lock act)
    (hs : s.step lock act = some s') : s'.Refines lock a ∨ ∃ b a', a.step b = some a' ∧ s'.Refines lock a' := by
  cases act with
  | kernel act => exact .inl (h.kernel hok hs)
  | enter c => exact .inl (h.enter hs)
  | begin =>
      obtain ⟨c, a', ha, hr⟩ := h.begin hs
      exact .inr ⟨_, a', ha, hr⟩
  | micro =>
      obtain ⟨k, a', ha, hr⟩ := h.micro hs
      exact .inr ⟨_, a', ha, hr⟩
  | finish =>
      obtain ⟨k, a', ha, hr⟩ := h.finish hs
      exact .inr ⟨_, a', ha, hr⟩
  | leave => exact .inl (h.leave hs)

end Refines

variable {mem : M} {value : ℕ → ℕ} {level : InterruptLevel} {intr : Bool} {d : D}

end Guarded

end Dunkos
