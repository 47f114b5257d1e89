import Dunkos.ThreadRun
import Dunkos.Lib.Reach

/-! # The interrupt level of a call (`thread.c`, `interrupt.c`)

`intr_level` is one variable.  The functions that disable interrupts keep the old level in a variable of their own, so
what other threads do in between does not matter to them; a timer interrupt keeps it on the stack of the thread.
`condvar_wait` calls `block_current`, which disables interrupts and does not say what the level was: the thread goes on
at the level of whoever switches to it.

`LevelState` records the level at which each thread made the call it is in, and both levels of the calls that have
returned.  `EndsAt` says at which level the statements of a thread end, and `Open` is the invariant of a call: of all
functions but `condvar_wait` in every run (`interrupt_level_restored_of_no_wait`), of `condvar_wait` where no switch
goes on with it at another level (`interrupt_level_restored`). -/

namespace Dunkos

open ThreadQueues

/-! ### Calls and their levels -/

/-- `condvar_wait` stops in `block_current`. -/
def ThreadOp.waits : ThreadOp → Bool
  | condvarWait _ _ => true
  | _ => false

/-- The functions that are to restore the level. -/
def ThreadOp.Restores : ThreadOp → Prop
  | threadUnblock _ => True
  | semaphoreInc _ => True
  | semaphoreDec _ => True
  | lockAcquire _ => True
  | lockRelease _ => True
  | condvarWait _ _ => True
  | condvarSignalOne _ _ => True
  | condvarSignalAll _ _ => True
  | _ => False

instance : ∀ op : ThreadOp, Decidable op.Restores
  | .threadUnblock _ | .semaphoreInc _ | .semaphoreDec _ | .lockAcquire _ | .lockRelease _ | .condvarWait _ _
  | .condvarSignalOne _ _ | .condvarSignalAll _ _ => .isTrue trivial
  | .createThread | .yieldCurrent | .blockCurrent | .threadBlock _ | .exitThread => .isFalse id

/-- A call, and `intr_level` when it was made. -/
structure LevelCall where
  op : ThreadOp
  level : InterruptLevel
deriving DecidableEq, Repr

/-- The kernel, the calls that threads are in, and those that have returned with the level then. -/
structure LevelState (M : Type) where
  kernel : Kernel M
  called : ℕ → Option LevelCall
  returns : List (LevelCall × InterruptLevel)

namespace LevelState
variable {M : Type} [ThreadQueues M]

/-- The calls that threads are in when the running thread begins an action. -/
def calledBy (s : LevelState M) : Action → ℕ → Option LevelCall
  | .call op =>
      if op.Restores then Function.update s.called s.kernel.running (some ⟨op, s.kernel.level⟩) else s.called
  | _ => s.called

/-- The thread `t` made an action that led to `k`: when it has nothing more to run, its call has returned. -/
def settle (called : ℕ → Option LevelCall) (returns : List (LevelCall × InterruptLevel)) (t : ℕ) (k : Kernel M) :
    LevelState M :=
  match called t with
  | some c =>
      if k.running = t ∧ k.cont t = [] then ⟨k, Function.update called t none, (c, k.level) :: returns⟩
      else ⟨k, called, returns⟩
  | none => ⟨k, called, returns⟩

def step (s : LevelState M) (act : Action) : Option (LevelState M) :=
  (s.kernel.step act).map (settle (s.calledBy act) s.returns s.kernel.running)

def start (mem : M) (value : ℕ → ℕ) (level : InterruptLevel) (intr : Bool) : LevelState M :=
  ⟨initThreads mem value level intr, fun _ => none, []⟩

/-- `k'` goes on behind `block_current` in `condvar_wait`. -/
def ResumesWaiter (k k' : Kernel M) : Prop :=
  (∃ l, k'.cont k'.running = lockAcquire l) ∧ (k'.running ≠ k.running ∨ ∃ c, k.next? = some (.waitBlock c))

/-- No switch goes on with a `condvar_wait` at another level than that of its call. -/
def ResumedAtLevel (s : LevelState M) (act : Action) : Prop :=
  ∀ k', s.kernel.step act = some k' → ResumesWaiter s.kernel k' →
    ∀ c, s.called k'.running = some c → k'.level = c.level

/-! Whether an action is one of these can be computed. -/

instance decidableAtAcquire (xs : List Stmt) : Decidable (∃ l, xs = lockAcquire l) :=
  decidable_of_iff (xs = lockAcquire (match xs.head? with
    | some (.semaphoreDec (.binary l)) => l
    | _ => 0)) ⟨fun h => ⟨_, h⟩, fun ⟨_, h⟩ => by rw [h]; rfl⟩

instance decidableAtBlock (stmt : Option Stmt) : Decidable (∃ c, stmt = some (.waitBlock c)) :=
  decidable_of_iff (stmt = some (.waitBlock (match stmt with
    | some (.waitBlock c) => c
    | _ => 0))) ⟨fun h => ⟨_, h⟩, fun ⟨_, h⟩ => by rw [h]⟩

instance (k k' : Kernel M) : Decidable (ResumesWaiter k k') :=
  inferInstanceAs (Decidable ((∃ l, k'.cont k'.running = lockAcquire l) ∧
    (k'.running ≠ k.running ∨ ∃ c, k.next? = some (.waitBlock c))))

instance (s : LevelState M) (act : Action) : Decidable (s.ResumedAtLevel act) :=
  inferInstanceAs (Decidable (∀ k' ∈ s.kernel.step act, ResumesWaiter s.kernel k' →
    ∀ c ∈ s.called k'.running, k'.level = c.level))

end LevelState

/-! ### At which level statements end -/

/-- The level behind the statements, when it is `level` in front of them. -/
def EndsAt (goal : InterruptLevel) : InterruptLevel → List Stmt → Prop
  | level, [] => level = goal
  | _, .isrReturn old :: xs => EndsAt goal old xs
  | _, .decLoop _ _ old :: _ => old = goal
  | level, _ :: _ => level = goal

/-- Statements that set no level of their own. -/
def Stmt.Plain : Stmt → Prop
  | isrReturn _ => False
  | decLoop _ _ _ => False
  | _ => True

theorem endsAt_of_plain {goal level : InterruptLevel} {xs : List Stmt} (h : ∀ stmt ∈ xs, stmt.Plain) :
    EndsAt goal level xs ↔ level = goal := by
  cases xs with
  | nil => exact Iff.rfl
  | cons stmt xs =>
      have hstmt := h stmt List.mem_cons_self
      cases stmt with
      | isrReturn old => exact hstmt.elim
      | decLoop s value old => exact hstmt.elim
      | _ => exact Iff.rfl

theorem AfterAcquire.plain {l : ℕ} {xs : List Stmt} (h : AfterAcquire l xs) : ∀ stmt ∈ xs, stmt.Plain := by
  cases h <;> simp [condvarSignalAll, Stmt.Plain]

theorem AfterRelease.plain {l : ℕ} {xs : List Stmt} (h : AfterRelease l xs) : ∀ stmt ∈ xs, stmt.Plain := by
  cases h with
  | done => simp
  | wait c => simp [lockAcquire, Stmt.Plain]
  | signal c h => simpa [lockAcquire, Stmt.Plain] using h.plain

/-- Behind a statement of a function there is none that sets a level of its own. -/
theorem Formed.plain {stmt : Stmt} {xs : List Stmt} (h : Formed (stmt :: xs)) (hisr : ∀ old, stmt ≠ .isrReturn old) :
    ∀ stmt ∈ xs, stmt.Plain := by
  cases h with
  | single => simp
  | isr old => exact absurd rfl (hisr old)
  | acquire h => simpa [Stmt.Plain] using h.plain
  | acquireLoop old h => simpa [Stmt.Plain] using h.plain
  | acquired h => exact h.plain
  | release h => simpa [Stmt.Plain] using h.plain
  | released h => exact h.plain
  | push c l => simp [lockAcquire, Stmt.Plain]
  | block c l => simp [lockAcquire, Stmt.Plain]
  | move c h => simpa [lockAcquire, Stmt.Plain] using h.plain

/-- What the functions that restore the level have to run; `waitBlock` only in `condvar_wait`. -/
def Stmt.Within (wait : Bool) : Stmt → Prop
  | startThread => False
  | createThread => False
  | yieldCurrent => False
  | blockCurrent => False
  | threadBlock _ => False
  | exitThread => False
  | waitBlock _ => wait = true
  | _ => True

theorem ThreadOp.body_ne_nil (op : ThreadOp) : op.body ≠ [] := by
  cases op <;> exact List.cons_ne_nil _ _

theorem ThreadOp.plain {op : ThreadOp} (h : op.Restores) : ∀ stmt ∈ op.body, stmt.Plain := by
  cases op with
  | createThread | yieldCurrent | blockCurrent | threadBlock | exitThread => exact h.elim
  | _ => simp [ThreadOp.body, Dunkos.lockAcquire, Dunkos.lockRelease, Dunkos.condvarWait, Dunkos.condvarSignalOne,
      Dunkos.condvarSignalAll, Stmt.Plain]

theorem ThreadOp.within {op : ThreadOp} (h : op.Restores) : ∀ stmt ∈ op.body, stmt.Within op.waits := by
  cases op with
  | createThread | yieldCurrent | blockCurrent | threadBlock | exitThread => exact h.elim
  | _ => simp [ThreadOp.body, Dunkos.lockAcquire, Dunkos.lockRelease, Dunkos.condvarWait, Dunkos.condvarSignalOne,
      Dunkos.condvarSignalAll, Stmt.Within, ThreadOp.waits]

namespace Kernel
variable {M : Type} [ThreadQueues M] {k k' : Kernel M}

theorem within_contAfter {wait : Bool} {stmt : Stmt} {xs : List Stmt} (h : ∀ x ∈ stmt :: xs, x.Within wait) :
    ∀ x ∈ k.contAfter xs stmt, x.Within wait := by
  obtain ⟨hstmt, hxs⟩ := List.forall_mem_cons.mp h
  cases stmt with
  | semaphoreDec s =>
      unfold contAfter
      dsimp only
      split_ifs
      · exact List.forall_mem_cons.mpr ⟨trivial, hxs⟩
      · exact hxs
  | decLoop s value old =>
      unfold contAfter
      dsimp only
      split_ifs
      · exact h
      · exact hxs
  | signalAll c l =>
      unfold contAfter
      dsimp only
      split_ifs
      · exact hxs
      · simpa [condvarSignalOne, condvarSignalAll, lockRelease, lockAcquire, Stmt.Within] using hxs
  | _ => exact hxs

theorem plain_contAfter {stmt : Stmt} {xs : List Stmt} (h : ∀ x ∈ xs, x.Plain) (hp : stmt.Plain)
    (hdec : ∀ s, stmt ≠ .semaphoreDec s) : ∀ x ∈ k.contAfter xs stmt, x.Plain := by
  cases stmt with
  | semaphoreDec s => exact absurd rfl (hdec s)
  | decLoop s value old => exact hp.elim
  | signalAll c l =>
      unfold contAfter
      dsimp only
      split_ifs
      · exact h
      · simpa [condvarSignalOne, condvarSignalAll, lockRelease, lockAcquire, Stmt.Plain] using h
  | _ => exact h

/-- The statements that leave the level as it is, and do not switch. -/
theorem exec_level {stmt : Stmt} {wait : Bool} (h : k.exec stmt = some k') (hw : stmt.Within wait) (hp : stmt.Plain)
    (hdec : ∀ s, stmt ≠ .semaphoreDec s) (hblock : ∀ c, stmt ≠ .waitBlock c) :
    k'.level = k.level ∧ k'.running = k.running := by
  cases stmt with
  | threadUnblock thr =>
      cases h
      rw [threadUnblock_eq]
      exact ⟨rfl, rfl⟩
  | semaphoreInc s =>
      obtain ⟨k₁, -, rfl⟩ := Option.map_eq_some_iff.mp h
      exact ⟨rfl, (semaphoreInc_frame h).2⟩
  | setHolder l | clearHolder l | waitPush c | signalMove c =>
      cases h
      exact ⟨rfl, rfl⟩
  | signalAll c l =>
      cases h
      split <;> exact ⟨rfl, rfl⟩
  | semaphoreDec s => exact absurd rfl (hdec s)
  | waitBlock c => exact absurd rfl (hblock c)
  | isrReturn | decLoop => exact hp.elim
  | _ => exact hw.elim

/-- A thread is in a call and will return from it at the level of the call: the running thread from the present level,
another one from any level, unless it stands behind `block_current`. -/
structure Open (k : Kernel M) (t : ℕ) (c : LevelCall) : Prop where
  busy : k.cont t ≠ []
  within : ∀ stmt ∈ k.cont t, stmt.Within c.op.waits
  here : t = k.running → EndsAt c.level k.level (k.cont t)
  away : t ≠ k.running → (c.op.waits = true ∧ ∃ l, k.cont t = lockAcquire l) ∨ ∀ level, EndsAt c.level level (k.cont t)

variable {t : ℕ} {c : LevelCall}

omit [ThreadQueues M] in
/-- A thread that was not running: it still is not, or goes on, at the level of its call if it waits. -/
theorem Open.other (h : Open k t c) (ht : t ≠ k.running) (hcont : k'.cont t = k.cont t)
    (hresume : t = k'.running → c.op.waits = true → (∃ l, k'.cont t = lockAcquire l) → k'.level = c.level) :
    Open k' t c := by
  refine ⟨hcont ▸ h.busy, hcont ▸ h.within, fun hrun => ?_, fun _ => hcont ▸ h.away ht⟩
  rcases h.away ht with ⟨hwait, l, hl⟩ | hends
  · have hl' : k'.cont t = lockAcquire l := hcont.trans hl
    rw [hl']
    exact hresume hrun hwait ⟨l, hl'⟩
  · rw [hcont]
    exact hends k'.level

omit [ThreadQueues M] in
/-- What stands on the stack of a thread says at which level it ends. -/
theorem Open.of_saved (hwithin : ∀ stmt ∈ k'.cont t, stmt.Within c.op.waits) (hbusy : k'.cont t ≠ [])
    (hends : ∀ level, EndsAt c.level level (k'.cont t)) : Open k' t c :=
  ⟨hbusy, hwithin, fun _ => hends _, fun _ => .inr hends⟩

omit [ThreadQueues M] in
/-- The running thread is interrupted. -/
theorem Open.interrupted (h : Open k k.running c) (hcont : k'.cont k.running = .isrReturn k.level :: k.cont k.running) :
    Open k' k.running c := by
  refine .of_saved ?_ ?_ fun level => ?_ <;> rw [hcont]
  · exact List.forall_mem_cons.mpr ⟨trivial, h.within⟩
  · exact List.cons_ne_nil _ _
  · exact h.here rfl

/-- The thread that ran goes on with its call, or has returned from it at the level of the call. -/
def GoesOn (k k' : Kernel M) (c : LevelCall) : Prop :=
  (k'.cont k.running ≠ [] → Open k' k.running c) ∧
    (k'.cont k.running = [] → k'.running = k.running ∧ k'.level = c.level)

omit [ThreadQueues M] in
/-- It still runs, at the level at which the rest ends. -/
theorem GoesOn.of_running (hwithin : ∀ x ∈ k'.cont k.running, x.Within c.op.waits) (hrun : k'.running = k.running)
    (hends : EndsAt c.level k'.level (k'.cont k.running)) : GoesOn k k' c := by
  refine ⟨fun hbusy => ⟨hbusy, hwithin, fun _ => hends, fun hne => absurd hrun.symm hne⟩, fun hnil => ⟨hrun, ?_⟩⟩
  rw [hnil] at hends
  exact hends

omit [ThreadQueues M] in
/-- It waits in `semaphore_dec`, which keeps the level. -/
theorem GoesOn.of_decLoop (hwithin : ∀ x ∈ k'.cont k.running, x.Within c.op.waits) {s : Sema} {value : ℕ}
    {xs : List Stmt} (hcont : k'.cont k.running = .decLoop s value c.level :: xs) : GoesOn k k' c := by
  refine ⟨fun hbusy => .of_saved hwithin hbusy fun level => ?_, fun hnil => ?_⟩
  · rw [hcont]
    exact rfl
  · rw [hcont] at hnil
    cases hnil

/-- `semaphore_dec` sets the level that it kept. -/
theorem decLoop_done {s : Sema} {value : ℕ} {old : InterruptLevel} (hv : value ≠ 0)
    (h : k.decLoop s value old = some k') : k'.level = old ∧ k'.running = k.running := by
  unfold decLoop at h
  rw [if_neg hv] at h
  cases h
  exact ⟨rfl, rfl⟩

/-- The running thread runs a statement of its call: the call goes on, or returns at its level. -/
theorem Open.run (hf : Formed (k.cont k.running)) (h : Open k k.running c) {stmt : Stmt} {xs : List Stmt}
    (hc : k.cont k.running = stmt :: xs) (he : Effect k stmt xs k') (hx : (k.pop xs).exec stmt = some k')
    (hresume : k.running = k'.running → c.op.waits = true → (∃ d, stmt = .waitBlock d) →
      (∃ l, k'.cont k.running = lockAcquire l) → k'.level = c.level) : GoesOn k k' c := by
  have hends := h.here rfl
  have hwithin := h.within
  rw [hc] at hf hends hwithin
  have hw := (List.forall_mem_cons.mp hwithin).1
  have hcont : k'.cont k.running = k.contAfter xs stmt := he.self
  have hwithin' : ∀ x ∈ k'.cont k.running, x.Within c.op.waits := by
    rw [hcont]
    exact within_contAfter hwithin
  cases stmt with
  | isrReturn old =>
      cases hx
      exact .of_running hwithin' rfl (hcont ▸ hends)
  | semaphoreDec s =>
      have hl : k.level = c.level := hends
      by_cases hv : k.value s = 0
      · exact .of_decLoop hwithin' (hcont.trans ((if_pos hv).trans (by rw [hl])))
      · obtain ⟨hlevel, hrun⟩ := decLoop_done (k := (k.pop xs).disableInterrupts) hv hx
        refine .of_running hwithin' hrun ?_
        rw [hcont.trans (if_neg hv)]
        exact (endsAt_of_plain (hf.plain (by simp))).mpr (hlevel.trans hl)
  | decLoop s value old =>
      obtain rfl : old = c.level := hends
      by_cases hv : value = 0
      · subst hv
        exact .of_decLoop hwithin' hcont
      · obtain ⟨hlevel, hrun⟩ := decLoop_done (k := k.pop xs) hv hx
        refine .of_running hwithin' hrun ?_
        rw [hcont.trans (if_neg hv)]
        exact (endsAt_of_plain (hf.plain (by simp))).mpr hlevel
  | waitBlock d =>
      obtain ⟨l, hl⟩ : ∃ l, k'.cont k.running = lockAcquire l := by
        rw [hcont]
        cases hf with
        | single h => exact h.elim
        | block d l => exact ⟨l, rfl⟩
      refine ⟨fun hbusy => ⟨hbusy, hwithin', fun hrun => ?_, fun _ => .inl ⟨hw, l, hl⟩⟩, fun hnil => ?_⟩
      · rw [hl]
        exact hresume hrun hw ⟨d, rfl⟩ ⟨l, hl⟩
      · rw [hl] at hnil
        cases hnil
  | startThread | createThread | yieldCurrent | blockCurrent | threadBlock | exitThread => exact hw.elim
  | _ =>
      obtain ⟨hlevel, hrun⟩ := exec_level hx hw trivial (by simp) (by simp)
      have hl : k.level = c.level := hends
      refine .of_running hwithin' hrun ?_
      rw [hcont]
      apply (endsAt_of_plain ?_).mpr (hlevel.trans hl)
      exact plain_contAfter (hf.plain (by simp)) trivial (by simp)

end Kernel

/-! ### Runs -/

namespace LevelState
open Kernel

variable {M : Type} [ThreadQueues M] {s s' : LevelState M} {P : ThreadOp → Prop}

/-- The calls of functions in `P` are open at their level, and those that returned did so at it. -/
structure Inv (P : ThreadOp → Prop) (s : LevelState M) : Prop where
  sane : s.kernel.Sane
  fresh : ∀ t, s.kernel.nextTid ≤ t → s.called t = none
  calls : ∀ t c, s.called t = some c → P c.op → s.kernel.Open t c
  right : ∀ r ∈ s.returns, P r.1.op → r.2 = r.1.level

/-- What an action does to the calls that threads are in when it begins. -/
def Goes (P : ThreadOp → Prop) (called : ℕ → Option LevelCall) (t : ℕ) (k' : Kernel M) : Prop :=
  ∀ u c, called u = some c → P c.op →
    (k'.cont u ≠ [] → k'.Open u c) ∧ (k'.cont u = [] → u = t ∧ k'.running = t ∧ k'.level = c.level)

omit [ThreadQueues M] in
theorem settle_inv {called : ℕ → Option LevelCall} {returns : List (LevelCall × InterruptLevel)} {t : ℕ} {k' : Kernel M}
    (hsane : k'.Sane) (hfresh : ∀ u, k'.nextTid ≤ u → called u = none) (hgoes : Goes P called t k')
    (hright : ∀ r ∈ returns, P r.1.op → r.2 = r.1.level) : (settle called returns t k').Inv P := by
  unfold settle
  cases hcall : called t with
  | none =>
      refine ⟨hsane, hfresh, fun u c hu hp => ?_, hright⟩
      obtain ⟨hopen, hback⟩ := hgoes u c hu hp
      refine hopen fun hnil => ?_
      obtain ⟨rfl, -⟩ := hback hnil
      cases hcall.symm.trans hu
  | some c =>
      dsimp only
      split_ifs with hret
      · refine ⟨hsane, fun u hu => ?_, fun u d hu hp => ?_, List.forall_mem_cons.mpr ⟨fun hp => ?_, hright⟩⟩
        · by_cases hut : u = t
          · rw [hut]
            exact Function.update_self ..
          · exact (Function.update_of_ne hut _ _).trans (hfresh u hu)
        · have hut : u ≠ t := by
            rintro rfl
            cases (Function.update_self u none called).symm.trans hu
          obtain ⟨hopen, hback⟩ := hgoes u d ((Function.update_of_ne hut _ _).symm.trans hu) hp
          exact hopen fun hnil => hut (hback hnil).1
        · exact ((hgoes t c hcall hp).2 hret.2).2.2
      · refine ⟨hsane, hfresh, fun u d hu hp => ?_, hright⟩
        obtain ⟨hopen, hback⟩ := hgoes u d hu hp
        refine hopen fun hnil => hret ?_
        obtain ⟨rfl, hrun, -⟩ := hback hnil
        exact ⟨hrun, hnil⟩

omit [ThreadQueues M] in
theorem calledBy_of_ne (s : LevelState M) (act : Action) {u : ℕ} (hne : u ≠ s.kernel.running) :
    s.calledBy act u = s.called u := by
  cases act with
  | call op =>
      show (if _ then _ else _ : ℕ → Option LevelCall) u = _
      split
      · exact Function.update_of_ne hne _ _
      · rfl
  | _ => rfl

/-- The action does not go on with a `condvar_wait` in `P` at another level than that of its call. -/
def Resumes (P : ThreadOp → Prop) (s : LevelState M) (k' : Kernel M) : Prop :=
  ResumesWaiter s.kernel k' → ∀ c, s.called k'.running = some c → P c.op → c.op.waits = true → k'.level = c.level

omit [ThreadQueues M] in
/-- A thread that did not run when the action began. -/
theorem Inv.other (h : s.Inv P) {k' : Kernel M} (hresume : Resumes P s k') {u : ℕ} {c : LevelCall}
    (hu : s.called u = some c) (hp : P c.op) (hne : u ≠ s.kernel.running) (hcont : k'.cont u = s.kernel.cont u) :
    (k'.cont u ≠ [] → k'.Open u c) ∧
      (k'.cont u = [] → u = s.kernel.running ∧ k'.running = s.kernel.running ∧ k'.level = c.level) := by
  have hopen := h.calls u c hu hp
  refine ⟨fun _ => hopen.other hne hcont fun hrun hwait hl => ?_, fun hnil => ?_⟩
  · subst hrun
    exact hresume ⟨hl, .inl hne⟩ c hu hp hwait
  · exact absurd (hcont.symm.trans hnil) hopen.busy

theorem Inv.call (h : s.Inv P) {op : ThreadOp} {k' : Kernel M} (hs : s.kernel.step (.call op) = some k') :
    Goes P (s.calledBy (.call op)) s.kernel.running k' := by
  obtain ⟨-, hnil, rfl⟩ := step_call hs
  have hself : (s.kernel.enter op.body).cont s.kernel.running = op.body := by
    rw [enter_self, hnil, List.append_nil]
  intro u c hu hp
  by_cases hrun : u = s.kernel.running
  · subst hrun
    by_cases hr : op.Restores
    · have hcall : s.calledBy (.call op) s.kernel.running = some ⟨op, s.kernel.level⟩ :=
        (congrFun (if_pos hr) _).trans (Function.update_self ..)
      obtain rfl := Option.some.inj (hcall.symm.trans hu)
      refine ⟨fun hbusy => ⟨hbusy, ?_, fun _ => ?_, fun hne => absurd rfl hne⟩, fun hnil' => ?_⟩
      · rw [hself]
        exact ThreadOp.within hr
      · rw [hself]
        exact (endsAt_of_plain (ThreadOp.plain hr)).mpr rfl
      · exact absurd (hself.symm.trans hnil') op.body_ne_nil
    · have hcall : s.called s.kernel.running = some c := (congrFun (if_neg hr) _).symm.trans hu
      exact absurd hnil (h.calls _ c hcall hp).busy
  · have hcall : s.called u = some c := (s.calledBy_of_ne _ hrun).symm.trans hu
    have hresume : Resumes P s (s.kernel.enter op.body) := by
      rintro ⟨-, hne | ⟨d, hd⟩⟩
      · exact absurd rfl hne
      · rw [next?, hnil] at hd
        cases hd
    exact h.other hresume hcall hp hrun (enter_others _ _ hrun)

theorem Inv.run (h : s.Inv P) {k' : Kernel M} (hresume : Resumes P s k') (hs : s.kernel.step .run = some k') :
    Goes P (s.calledBy .run) s.kernel.running k' := by
  obtain ⟨stmt, xs, hc, he, hx⟩ := run_effect h.sane hs
  intro u c hu hp
  by_cases hrun : u = s.kernel.running
  · subst hrun
    obtain ⟨hgo, hback⟩ := (h.calls _ c hu hp).run (h.sane.formed _) hc he hx fun hsame hwait hblock hl => by
      obtain ⟨d, rfl⟩ := hblock
      refine hresume ⟨hsame ▸ hl, .inr ⟨d, ?_⟩⟩ c (hsame ▸ hu) hp hwait
      rw [next?, hc]
      rfl
    exact ⟨hgo, fun hnil => ⟨rfl, hback hnil⟩⟩
  · rcases he.others u hrun with hcont | ⟨hnew, -⟩
    · exact h.other hresume hu hp hrun hcont
    · cases (h.fresh u hnew.ge).symm.trans hu

theorem Inv.interrupt (h : s.Inv P) {k' : Kernel M} (hresume : Resumes P s k') (hs : s.kernel.step .interrupt = some k') :
    Goes P (s.calledBy .interrupt) s.kernel.running k' := by
  have hsw := yieldCurrent_switch (step_interrupt hs).2
  intro u c hu hp
  by_cases hrun : u = s.kernel.running
  · subst hrun
    have hcont : k'.cont s.kernel.running = .isrReturn s.kernel.level :: s.kernel.cont s.kernel.running := by
      rw [hsw.cont]
      exact enter_self s.kernel.disableInterrupts _
    refine ⟨fun _ => (h.calls _ c hu hp).interrupted hcont, fun hnil => ?_⟩
    rw [hcont] at hnil
    cases hnil
  · refine h.other hresume hu hp hrun ?_
    rw [hsw.cont]
    exact enter_others s.kernel.disableInterrupts _ hrun

/-- **One action.** -/
theorem Inv.step (h : s.Inv P) {act : Action} (hresume : ∀ k', s.kernel.step act = some k' → Resumes P s k')
    (hs : s.step act = some s') : s'.Inv P := by
  obtain ⟨k', hk', rfl⟩ := Option.map_eq_some_iff.mp hs
  have hnext := (h.sane.step_keeps hk').2
  have hfresh : ∀ u, k'.nextTid ≤ u → s.calledBy act u = none := by
    intro u hu
    have hrun := h.sane.exists_running
    rw [s.calledBy_of_ne act (by omega)]
    exact h.fresh u (hnext.trans hu)
  refine settle_inv (h.sane.step hk') hfresh ?_ h.right
  cases act with
  | call op => exact h.call hk'
  | run => exact h.run (hresume k' hk') hk'
  | interrupt => exact h.interrupt (hresume k' hk') hk'

section
variable {mem : M} {value : ℕ → ℕ} {level : InterruptLevel} {intr : Bool}

theorem inv_start : (start mem value level intr).Inv P :=
  ⟨initThreads_sane mem value level intr, fun _ _ => rfl, fun _ _ h => absurd h (by simp [start]),
    fun _ h => absurd h (by simp [start])⟩

/-- **All but `condvar_wait`** return at the level of their call, in every run. -/
theorem interrupt_level_restored_of_no_wait (h : Transition.Reach step (fun _ _ => True) (start mem value level intr) s) :
    ∀ r ∈ s.returns, r.1.op.waits = false → r.2 = r.1.level := by
  have hinv : s.Inv fun op => op.waits = false := h.invariant inv_start fun s act s' hs _ hst =>
    hs.step (fun k' _ _ c _ hno hwait => absurd (hno.symm.trans hwait) Bool.false_ne_true) hst
  exact hinv.right

end

end LevelState

/-- **The level is restored**: in every run in which no switch goes on with a `condvar_wait` at another level than that
of its call, each call has returned at the level at which it was made. -/
theorem interrupt_level_restored {M : Type} [ThreadQueues M] {mem : M} {value : ℕ → ℕ} {level : InterruptLevel}
    {intr : Bool} {s : LevelState M}
    (h : Transition.Reach LevelState.step LevelState.ResumedAtLevel (LevelState.start mem value level intr) s) :
    ∀ r ∈ s.returns, r.2 = r.1.level := by
  have hinv : s.Inv fun _ => True := h.invariant LevelState.inv_start fun s act s' hs hok hst =>
    hs.step (fun k' hk' hw c hc _ _ => hok k' hk' hw c hc) hst
  exact fun r hr => hinv.right r hr trivial

section
open LevelState

/-- Thread `0` waits, and thread `2` signals it and releases the lock. -/
def signalledWaiter : List Action :=
  [.call .createThread, .run, .call (.lockAcquire 0), .run, .run, .call (.condvarWait 0 0), .run, .run, .run, .run, .run,
    .call (.lockAcquire 0), .run, .run, .call (.condvarSignalOne 0 0), .run, .run, .run, .run, .run,
    .call (.lockRelease 0), .run, .run]

/-- Thread `2` yields, with interrupts enabled. -/
theorem interrupt_level_restored_yield :
    let mem : ListMem Queue ℕ := ⟨fun _ => .null, fun _ => .null, fun _ => 0⟩
    ∃ s, Transition.runs step ResumedAtLevel (start mem (fun _ => 0) .enabled true)
        (signalledWaiter ++ [.call .yieldCurrent, .run, .run, .run]) = some s ∧
      s.returns.head? = some (⟨.condvarWait 0 0, .enabled⟩, .enabled) ∧ ∀ r ∈ s.returns, r.2 = r.1.level := by
  intro mem
  have hrun : (Transition.runs step ResumedAtLevel (start mem (fun _ => 0) .enabled true)
      (signalledWaiter ++ [.call .yieldCurrent, .run, .run, .run])).map (fun s => s.returns.head?) =
      some (some (⟨.condvarWait 0 0, .enabled⟩, .enabled)) := by
    decide +kernel
  obtain ⟨s, hs, hhead⟩ := Option.map_eq_some_iff.mp hrun
  exact ⟨s, hs, hhead, interrupt_level_restored (.of_runs hs)⟩

/-- **The timer ends the turn of thread `2`**: `condvar_wait`, called with interrupts enabled, returns with interrupts
disabled. -/
theorem condvar_wait_returns_disabled :
    let mem : ListMem Queue ℕ := ⟨fun _ => .null, fun _ => .null, fun _ => 0⟩
    ∃ s, Transition.Reach step (fun _ _ => True) (start mem (fun _ => 0) .enabled true) s ∧
      (⟨.condvarWait 0 0, .enabled⟩, .disabled) ∈ s.returns := by
  intro mem
  have hrun : (Transition.runs step (fun _ _ => True) (start mem (fun _ => 0) .enabled true)
      (signalledWaiter ++ [.interrupt, .run, .run])).map
        (fun s => decide ((⟨.condvarWait 0 0, .enabled⟩, .disabled) ∈ s.returns)) = some true := by
    decide +kernel
  obtain ⟨s, hs, hmem⟩ := Option.map_eq_some_iff.mp hrun
  exact ⟨s, .of_runs hs, of_decide_eq_true hmem⟩

end

end Dunkos
