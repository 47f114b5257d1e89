import Dunkos.ThreadRun
import Dunkos.ListSpec
import Dunkos.Lib.Reach

/-! # Mutual exclusion of kernel locks

`LockHistory` records, next to the kernel, which threads are inside a lock (they have completed the
`semaphore_dec` of `lock_acquire` and not performed the `semaphore_inc` of `lock_release`), which hold
it (`lock_acquire` has returned and `lock_release` has not begun), and whose `lock_acquire` returned
last.

The kernel does not check who releases a lock.  `lock_mutual_exclusion` is about runs in which every
`lock_release` is by the thread whose `lock_acquire` returned last, and which has not released the
lock since; `lock_release_twice` shows what happens without the second condition.  Neither needs to
know who waits where: the value of the semaphore alone keeps threads out. -/

namespace Dunkos

/-- Per lock: the threads inside, the threads that hold it, and whose `lock_acquire` returned last. -/
structure LockHistory where
  inside : ℕ → List ℕ
  holding : ℕ → List ℕ
  last : ℕ → Option ℕ

namespace LockHistory
variable {M : Type} [ThreadQueues M]

def start : LockHistory := ⟨fun _ => [], fun _ => [], fun _ => none⟩

def enter (g : LockHistory) (l t : ℕ) : LockHistory := { g with inside := Function.update g.inside l (t :: g.inside l) }

/-- What the statement that the running thread is about to run adds to the record. -/
def record (g : LockHistory) (k : Kernel M) : Stmt → LockHistory
  | .semaphoreDec (.binary l) => if k.value (.binary l) = 0 then g else g.enter l k.running
  | .decLoop (.binary l) value _ => if value = 0 then g else g.enter l k.running
  | .setHolder l => { g with
      holding := Function.update g.holding l (k.running :: g.holding l)
      last := Function.update g.last l (some k.running) }
  | .clearHolder l => { g with holding := Function.update g.holding l ((g.holding l).erase k.running) }
  | .semaphoreInc (.binary l) => { g with inside := Function.update g.inside l ((g.inside l).erase k.running) }
  | _ => g

def after (g : LockHistory) (k : Kernel M) : Action → LockHistory
  | .run => k.next?.elim g (g.record k)
  | _ => g

end LockHistory

/-- The kernel and its record. -/
abbrev LockState (M : Type) := Kernel M × LockHistory

namespace LockState
variable {M : Type} [ThreadQueues M]

def step (s : LockState M) (act : Action) : Option (LockState M) :=
  (s.1.step act).map (fun k => (k, s.2.after s.1 act))

/-- The lock that the running thread begins to release. -/
def releases (s : LockState M) : Action → Option ℕ
  | .run =>
      match s.1.next? with
      | some (.clearHolder l) => some l
      | _ => none
  | _ => none

/-- Every `lock_release` is by the thread whose `lock_acquire` returned last. -/
def ReleasedByLast (s : LockState M) (act : Action) : Prop :=
  ∀ l ∈ s.releases act, s.2.last l = some s.1.running

/-- And that thread has not released the lock since. -/
def ReleasedOnce (s : LockState M) (act : Action) : Prop :=
  ∀ l ∈ s.releases act, s.2.last l = some s.1.running ∧ s.1.running ∈ s.2.holding l

instance (s : LockState M) (act : Action) : Decidable (s.ReleasedByLast act) :=
  inferInstanceAs (Decidable (∀ l ∈ s.releases act, _))

instance (s : LockState M) (act : Action) : Decidable (s.ReleasedOnce act) :=
  inferInstanceAs (Decidable (∀ l ∈ s.releases act, _ ∧ _))

/-- The value of a lock's semaphore and the threads inside add up to one, and the holder is set. -/
structure Exclusive (s : LockState M) (l : ℕ) : Prop where
  sum : s.1.value (.binary l) + (s.2.inside l).length = 1
  holder : ∀ t ∈ s.2.holding l, s.1.holder l = some t

end LockState

/-! ### The phases of a lock -/

/-- What a thread does first when it is not in an interrupt. -/
def current : List Stmt → Option Stmt
  | [] => none
  | .isrReturn _ :: xs => current xs
  | stmt :: _ => some stmt

/-- The thread is inside the lock but does not hold it: `holder` is not yet set, or it is cleared and
the value is to be incremented. -/
def Critical (l : ℕ) (xs : List Stmt) : Prop :=
  current xs = some (.setHolder l) ∨ current xs = some (.semaphoreInc (.binary l))

/-- A lock is free, or one thread holds it, or one thread is on its way in or out. -/
inductive LockPhase {M : Type} (k : Kernel M) (g : LockHistory) (l : ℕ) : Prop
  | free (value : k.value (.binary l) = 1) (inside : g.inside l = []) (holding : g.holding l = [])
      (others : ∀ u, ¬ Critical l (k.cont u))
  | held (t : ℕ) (exists_t : t < k.nextTid) (value : k.value (.binary l) = 0) (inside : g.inside l = [t])
      (holding : g.holding l = [t]) (holder : k.holder l = some t) (others : ∀ u, ¬ Critical l (k.cont u))
  | passing (t : ℕ) (exists_t : t < k.nextTid) (value : k.value (.binary l) = 0) (inside : g.inside l = [t])
      (holding : g.holding l = []) (critical : Critical l (k.cont t)) (others : ∀ u, u ≠ t → ¬ Critical l (k.cont u))

namespace LockPhase
variable {M : Type} [ThreadQueues M] {k k' : Kernel M} {g g' : LockHistory} {l : ℕ}

omit [ThreadQueues M] in
theorem exclusive (h : LockPhase k g l) : LockState.Exclusive (k, g) l := by
  cases h with
  | free hv hi hg _ =>
      refine ⟨?_, fun t ht => ?_⟩
      · show k.value _ + (g.inside l).length = 1
        rw [hv, hi, List.length_nil]
      · have ht' : t ∈ g.holding l := ht
        rw [hg] at ht'
        cases ht'
  | held t _ hv hi hg hh _ =>
      refine ⟨?_, fun u hu => ?_⟩
      · show k.value _ + (g.inside l).length = 1
        rw [hv, hi, List.length_singleton]
      · have hu' : u ∈ g.holding l := hu
        rw [hg, List.mem_singleton] at hu'
        exact hu' ▸ hh
  | passing t _ hv hi hg _ _ =>
      refine ⟨?_, fun u hu => ?_⟩
      · show k.value _ + (g.inside l).length = 1
        rw [hv, hi, List.length_singleton]
      · have hu' : u ∈ g.holding l := hu
        rw [hg] at hu'
        cases hu'

/-- The cont of a thread that does not run is kept, or it is a new thread. -/
def Kept (k k' : Kernel M) (r : ℕ) : Prop :=
  ∀ t, t ≠ r → k'.cont t = k.cont t ∨ (t = k.nextTid ∧ k'.cont t = [.startThread])

omit [ThreadQueues M] in
theorem Kept.not_critical {r : ℕ} (hk : Kept k k' r) {t : ℕ} (ht : t ≠ r) (h : ¬ Critical l (k.cont t)) :
    ¬ Critical l (k'.cont t) := by
  rcases hk t ht with he | ⟨-, he⟩
  · rwa [he]
  · rw [he]
    unfold Critical current
    simp

omit [ThreadQueues M] in
/-- Steps that do not concern the lock. -/
theorem keep (h : LockPhase k g l) {r : ℕ} (hv : k'.value (.binary l) = k.value (.binary l))
    (hh : k'.holder l = k.holder l) (hi : g'.inside l = g.inside l) (hg : g'.holding l = g.holding l)
    (hn : k.nextTid ≤ k'.nextTid) (hk : Kept k k' r) (hr : Critical l (k'.cont r) ↔ Critical l (k.cont r)) :
    LockPhase k' g' l := by
  have hothers : ∀ t, ¬ Critical l (k.cont t) → ¬ Critical l (k'.cont t) := by
    intro t ht
    by_cases htr : t = r
    · rwa [htr, hr, ← htr]
    · exact hk.not_critical htr ht
  cases h with
  | free h₁ h₂ h₃ h₄ => exact .free (hv.trans h₁) (hi.trans h₂) (hg.trans h₃) fun u => hothers u (h₄ u)
  | held t h₀ h₁ h₂ h₃ h₄ h₅ =>
      exact .held t (Nat.lt_of_lt_of_le h₀ hn) (hv.trans h₁) (hi.trans h₂) (hg.trans h₃) (hh.trans h₄)
        fun u => hothers u (h₅ u)
  | passing t h₀ h₁ h₂ h₃ h₄ h₅ =>
      refine .passing t (Nat.lt_of_lt_of_le h₀ hn) (hv.trans h₁) (hi.trans h₂) (hg.trans h₃) ?_
        fun u hu => hothers u (h₅ u hu)
      by_cases htr : t = r
      · rw [htr, hr, ← htr]
        exact h₄
      · rcases hk t htr with he | ⟨he, -⟩
        · rwa [he]
        · exact absurd he (Nat.ne_of_lt h₀)

variable {xs : List Stmt}

/-- `semaphore_dec` got the unit: the thread is on its way in. -/
theorem acquire (h : LockPhase k g l) (hr : k.running < k.nextTid) (hv : k.value (.binary l) ≠ 0)
    (he : k.Effect (.semaphoreDec (.binary l)) (.setHolder l :: xs) k') :
    LockPhase k' (g.enter l k.running) l := by
  have hself : k'.cont k.running = .setHolder l :: xs := he.self.trans (if_neg hv)
  cases h with
  | free h₁ h₂ h₃ h₄ =>
      refine .passing k.running (Nat.lt_of_lt_of_le hr he.nextTid) ?_ ?_ h₃ ?_ fun u hu =>
        Kept.not_critical he.others hu (h₄ u)
      · rw [he.value]
        show (if _ then _ else _ : Sema → ℕ) _ = 0
        rw [if_neg hv, Function.update_self, h₁]
      · show Function.update g.inside l (k.running :: g.inside l) l = _
        rw [Function.update_self, h₂]
      · rw [hself]
        exact .inl rfl
  | held t _ h₁ => exact absurd h₁ hv
  | passing t _ h₁ => exact absurd h₁ hv

omit [ThreadQueues M] in
/-- A thread at a critical statement is the one on its way in or out. -/
theorem of_critical (h : LockPhase k g l) {t : ℕ} (hcrit : Critical l (k.cont t)) : t < k.nextTid ∧
    k.value (.binary l) = 0 ∧ g.inside l = [t] ∧ g.holding l = [] ∧ ∀ u, u ≠ t → ¬ Critical l (k.cont u) := by
  cases h with
  | free _ _ _ h₄ => exact absurd hcrit (h₄ t)
  | held _ _ _ _ _ _ h₅ => exact absurd hcrit (h₅ t)
  | passing t' h₀ h₁ h₂ h₃ _ h₅ =>
      have ht : t = t' := Classical.not_not.mp fun hne => h₅ t hne hcrit
      subst ht
      exact ⟨h₀, h₁, h₂, h₃, h₅⟩

omit [ThreadQueues M] in
/-- Behind its statement it is at none. -/
theorem Kept.none_critical {r : ℕ} (hk : Kept k k' r) (hr : ¬ Critical l (k'.cont r))
    (h : ∀ u, u ≠ r → ¬ Critical l (k.cont u)) (u : ℕ) : ¬ Critical l (k'.cont u) := by
  by_cases hu : u = r
  · rwa [hu]
  · exact hk.not_critical hu (h u hu)

/-- The holder is set: the thread holds the lock. -/
theorem acquired (h : LockPhase k g l) (hc : k.cont k.running = .setHolder l :: xs) (hx : ¬ Critical l xs)
    (he : k.Effect (.setHolder l) xs k') : LockPhase k' (g.record k (.setHolder l)) l := by
  have hself : k'.cont k.running = xs := he.self
  have hcrit : Critical l (k.cont k.running) := hc ▸ .inl rfl
  obtain ⟨h₀, h₁, h₂, h₃, h₅⟩ := h.of_critical hcrit
  refine .held k.running (Nat.lt_of_lt_of_le h₀ he.nextTid) ?_ h₂ ?_ ?_ (Kept.none_critical he.others (hself ▸ hx) h₅)
  · rw [he.value]
    exact h₁
  · show Function.update g.holding l (k.running :: g.holding l) l = _
    rw [Function.update_self, h₃]
  · rw [he.holder]
    exact Function.update_self ..

/-- `lock_release` begins: the thread that holds the lock is on its way out. -/
theorem release (h : LockPhase k g l) (hheld : k.running ∈ g.holding l)
    (he : k.Effect (.clearHolder l) (.semaphoreInc (.binary l) :: xs) k') :
    LockPhase k' (g.record k (.clearHolder l)) l := by
  have hself : k'.cont k.running = .semaphoreInc (.binary l) :: xs := he.self
  cases h with
  | free _ _ h₃ =>
      rw [h₃] at hheld
      cases hheld
  | passing _ _ _ _ h₃ =>
      rw [h₃] at hheld
      cases hheld
  | held t h₀ h₁ h₂ h₃ _ h₅ =>
      rw [h₃, List.mem_singleton] at hheld
      subst hheld
      refine .passing k.running (Nat.lt_of_lt_of_le h₀ he.nextTid) ?_ h₂ ?_ ?_ fun u hu =>
        Kept.not_critical he.others hu (h₅ u)
      · rw [he.value]
        exact h₁
      · show Function.update g.holding l ((g.holding l).erase k.running) l = _
        rw [Function.update_self, h₃, List.erase_cons_head]
      · rw [hself]
        exact .inr rfl

/-- `semaphore_inc` gives the unit back: the lock is free. -/
theorem released (h : LockPhase k g l) (hc : k.cont k.running = .semaphoreInc (.binary l) :: xs)
    (hx : ¬ Critical l xs) (he : k.Effect (.semaphoreInc (.binary l)) xs k') :
    LockPhase k' (g.record k (.semaphoreInc (.binary l))) l := by
  have hself : k'.cont k.running = xs := he.self
  have hcrit : Critical l (k.cont k.running) := hc ▸ .inr rfl
  obtain ⟨-, h₁, h₂, h₃, h₅⟩ := h.of_critical hcrit
  refine .free ?_ ?_ h₃ (Kept.none_critical he.others (hself ▸ hx) h₅)
  · rw [he.value]
    show Function.update k.value (.binary l) _ (.binary l) = 1
    rw [Function.update_self]
    omega
  · show Function.update g.inside l ((g.inside l).erase k.running) l = _
    rw [Function.update_self, h₂, List.erase_cons_head]

end LockPhase

/-! ### Runs -/

theorem AfterAcquire.not_critical {l l' : ℕ} {xs : List Stmt} (h : AfterAcquire l xs) : ¬ Critical l' xs := by
  cases h <;> simp [Critical, current, condvarSignalAll]

theorem AfterRelease.not_critical {l l' : ℕ} {xs : List Stmt} (h : AfterRelease l xs) : ¬ Critical l' xs := by
  cases h <;> simp [Critical, current]

theorem body_not_critical {l : ℕ} (op : ThreadOp) : ¬ Critical l op.body := by
  cases op <;> simp [Critical, current, ThreadOp.body, lockAcquire, lockRelease, condvarWait, condvarSignalOne,
    condvarSignalAll]

namespace LockState
variable {M : Type} [ThreadQueues M] {s s' : LockState M}

/-- Every thread runs what it can, and every lock is in one of its phases. -/
structure Inv (s : LockState M) : Prop where
  sane : s.1.Sane
  phase : ∀ l, LockPhase s.1 s.2 l

/-- A statement that enters or leaves no lock. -/
theorem phase_keep {k k' : Kernel M} {g : LockHistory} {stmt : Stmt} {xs : List Stmt} {l : ℕ}
    (h : LockPhase k g l) (he : k.Effect stmt xs k') (hv : k.valueAfter stmt (.binary l) = k.value (.binary l))
    (hh : k.holderAfter stmt l = k.holder l) (hi : (g.record k stmt).inside l = g.inside l)
    (hg : (g.record k stmt).holding l = g.holding l)
    (hr : Critical l (k.contAfter xs stmt) ↔ Critical l (k.cont k.running)) :
    LockPhase k' (g.record k stmt) l :=
  h.keep (by rw [he.value, hv]) (by rw [he.holder, hh]) hi hg he.nextTid he.others (by rw [he.self, hr])

/-- Statements that are functions of their own do not concern locks. -/
theorem single_quiet (k : Kernel M) (g : LockHistory) (l : ℕ) {stmt : Stmt} (h : stmt.Single) :
    k.valueAfter stmt (.binary l) = k.value (.binary l) ∧ k.holderAfter stmt = k.holder ∧ g.record k stmt = g ∧
      ¬ Critical l (k.contAfter [] stmt) ∧ ¬ Critical l [stmt] := by
  cases stmt with
  | semaphoreInc s =>
      cases s with
      | binary l => exact h.elim
      | sem i =>
          refine ⟨?_, rfl, rfl, by simp [Critical, current, Kernel.contAfter], by simp [Critical, current]⟩
          show Function.update k.value (.sem i) _ (.binary l) = _
          exact Function.update_of_ne (by simp) _ _
  | semaphoreDec s =>
      cases s with
      | binary l => exact h.elim
      | sem i =>
          refine ⟨?_, rfl, rfl, ?_, by simp [Critical, current]⟩
          · show (if _ then _ else _ : Sema → ℕ) _ = _
            split_ifs
            · rfl
            · exact Function.update_of_ne (by simp) _ _
          · show ¬ Critical l (if _ then _ else _)
            split_ifs <;> simp [Critical, current]
  | decLoop s value old =>
      cases s with
      | binary l => exact h.elim
      | sem i =>
          have hv : value = 0 := h
          subst hv
          exact ⟨rfl, rfl, rfl, by simp [Critical, current, Kernel.contAfter], by simp [Critical, current]⟩
  | signalAll c l' =>
      refine ⟨rfl, rfl, rfl, ?_, by simp [Critical, current]⟩
      show ¬ Critical l (if _ then _ else _)
      split_ifs <;> simp [Critical, current, condvarSignalOne, lockRelease]
  | setHolder l => exact h.elim
  | clearHolder l => exact h.elim
  | _ => exact ⟨rfl, rfl, rfl, by simp [Critical, current, Kernel.contAfter], by simp [Critical, current]⟩

/-- `semaphore_dec` of a lock: the thread waits, or is on its way in. -/
theorem phase_acquire {k k' : Kernel M} {g : LockHistory} {l : ℕ} {ys : List Stmt} (hk : k.Sane)
    (h : ∀ l, LockPhase k g l) (hc : k.cont k.running = .semaphoreDec (.binary l) :: .setHolder l :: ys)
    (he : k.Effect (.semaphoreDec (.binary l)) (.setHolder l :: ys) k') (l' : ℕ) :
    LockPhase k' (g.record k (.semaphoreDec (.binary l))) l' := by
  by_cases hv : k.value (.binary l) = 0
  · -- the thread waits
    have hrec : g.record k (.semaphoreDec (.binary l)) = g := if_pos hv
    have hcont : k.contAfter (.setHolder l :: ys) (.semaphoreDec (.binary l)) =
        .decLoop (.binary l) 0 k.level :: .setHolder l :: ys := if_pos hv
    refine phase_keep (h l') he (congrFun (if_pos hv) _) rfl (by rw [hrec]) (by rw [hrec]) ?_
    rw [hc, hcont]
    simp [Critical, current]
  · have hrec : g.record k (.semaphoreDec (.binary l)) = g.enter l k.running := if_neg hv
    by_cases hl : l' = l
    · subst hl
      rw [hrec]
      exact (h l').acquire hk.exists_running hv he
    · have hcont : k.contAfter (.setHolder l :: ys) (.semaphoreDec (.binary l)) = .setHolder l :: ys := if_neg hv
      have hval : k.valueAfter (.semaphoreDec (.binary l)) =
          Function.update k.value (.binary l) (k.value (.binary l) - 1) := if_neg hv
      refine phase_keep (h l') he ?_ rfl ?_ (by rw [hrec]; rfl) ?_
      · rw [hval, Function.update_of_ne (by simp [hl])]
      · rw [hrec]
        exact Function.update_of_ne hl _ _
      · rw [hc, hcont]
        simp [Critical, current, Ne.symm hl]

/-- What one statement of a thread does to a lock. -/
theorem phase_run {k k' : Kernel M} {g : LockHistory} {stmt : Stmt} {xs : List Stmt} (hk : k.Sane)
    (h : ∀ l, LockPhase k g l) (hc : k.cont k.running = stmt :: xs) (he : k.Effect stmt xs k')
    (hrel : ∀ l, stmt = .clearHolder l → k.running ∈ g.holding l) (l' : ℕ) :
    LockPhase k' (g.record k stmt) l' := by
  have hformed : Formed (stmt :: xs) := hc ▸ hk.formed k.running
  cases hformed with
  | acquire hx => exact phase_acquire hk h hc he l'
  | acquireLoop old hx =>
      refine phase_keep (h l') he rfl rfl rfl rfl ?_
      rw [hc]
      exact Iff.rfl
  | @acquired l _ hx =>
      by_cases hl : l' = l
      · subst hl
        exact (h l').acquired hc hx.not_critical he
      · refine phase_keep (h l') he rfl (Function.update_of_ne hl _ _) rfl (Function.update_of_ne hl _ _) ?_
        rw [hc]
        refine ⟨fun hx' => absurd hx' hx.not_critical, fun hx' => ?_⟩
        simp [Critical, current, Ne.symm hl] at hx'
  | @release l _ hx =>
      by_cases hl : l' = l
      · subst hl
        exact (h l').release (hrel l' rfl) he
      · refine phase_keep (h l') he rfl (Function.update_of_ne hl _ _) rfl (Function.update_of_ne hl _ _) ?_
        rw [hc]
        show Critical l' (.semaphoreInc (.binary l) :: _) ↔ _
        simp [Critical, current, Ne.symm hl]
  | @released l _ hx =>
      by_cases hl : l' = l
      · subst hl
        exact (h l').released hc hx.not_critical he
      · refine phase_keep (h l') he (Function.update_of_ne (by simp [hl]) _ _) rfl (Function.update_of_ne hl _ _) rfl ?_
        rw [hc]
        refine ⟨fun hx' => absurd hx' hx.not_critical, fun hx' => ?_⟩
        simp [Critical, current, Ne.symm hl] at hx'
  | isr old hx =>
      refine phase_keep (h l') he rfl rfl rfl rfl ?_
      rw [hc]
      exact Iff.rfl
  | push c l =>
      refine phase_keep (h l') he rfl rfl rfl rfl ?_
      rw [hc]
      show Critical l' (.waitBlock c :: _) ↔ _
      simp [Critical, current]
  | block c l =>
      refine phase_keep (h l') he rfl rfl rfl rfl ?_
      rw [hc]
      show Critical l' (.semaphoreDec _ :: _) ↔ _
      simp [Critical, current]
  | move c hx =>
      refine phase_keep (h l') he rfl rfl rfl rfl ?_
      rw [hc]
      show Critical l' (.semaphoreDec _ :: _) ↔ _
      simp [Critical, current]
  | single hx =>
      obtain ⟨h₁, h₂, h₃, h₄, h₅⟩ := single_quiet k g l' hx
      exact phase_keep (h l') he h₁ (by rw [h₂]) (by rw [h₃]) (by rw [h₃]) ⟨fun hx' => absurd hx' h₄,
        fun hx' => absurd (hc ▸ hx') h₅⟩

/-- **One step**: when a lock is released only by the thread that holds it, every lock stays in one of
its phases. -/
theorem Inv.step (h : Inv s) {act : Action} (hok : s.ReleasedOnce act) (hs : s.step act = some s') : Inv s' := by
  obtain ⟨k, g⟩ := s
  obtain ⟨k', hk, rfl⟩ := Option.map_eq_some_iff.mp hs
  refine ⟨h.sane.step hk, fun l => ?_⟩
  cases act with
  | call op =>
      obtain ⟨-, hc, rfl⟩ := Kernel.step_call hk
      refine (h.phase l).keep rfl rfl rfl rfl (Nat.le_refl _) (fun t ht => .inl (Kernel.enter_others k _ ht)) ?_
      rw [Kernel.enter_self, hc, List.append_nil]
      exact ⟨fun hx => absurd hx (body_not_critical op), fun hx => by simp [Critical, current] at hx⟩
  | run =>
      obtain ⟨stmt, xs, hc, he, -⟩ := Kernel.run_effect h.sane hk
      have hnext : k.next? = some stmt := Kernel.next?_of_cont hc
      have hafter : g.after k .run = g.record k stmt := by
        unfold LockHistory.after
        rw [hnext]
        rfl
      show LockPhase k' (g.after k .run) l
      rw [hafter]
      refine phase_run h.sane h.phase hc he (fun l hl => (hok l ?_).2) l
      show l ∈ (match k.next? with | some (.clearHolder l) => some l | _ => none)
      rw [hnext, hl]
      rfl
  | interrupt =>
      have hsw := Kernel.yieldCurrent_switch (Kernel.step_interrupt hk).2
      refine (h.phase l).keep (r := k.running) (congrFun hsw.value _) (congrFun hsw.holder _) rfl rfl hsw.nextTid.ge
        (fun t ht => .inl ?_) ?_
      · rw [hsw.cont]
        exact Kernel.enter_others k.disableInterrupts _ ht
      · rw [hsw.cont]
        show Critical l ((k.disableInterrupts.enter [.isrReturn k.level]).cont k.disableInterrupts.running) ↔ _
        rw [Kernel.enter_self]
        exact Iff.rfl

theorem inv_init (mem : M) (value : ℕ → ℕ) (level : InterruptLevel) (intr : Bool) :
    Inv (initThreads mem value level intr, LockHistory.start) := by
  refine ⟨Kernel.initThreads_sane mem value level intr, fun l => .free ?_ rfl rfl fun u => ?_⟩
  · unfold initThreads
    rw [Kernel.threadUnblock_eq]
    rfl
  · show ¬ Critical l ((initThreads mem value level intr).cont u)
    rw [Kernel.initThreads_cont]
    split_ifs <;> simp [Critical, current]

end LockState

open LockState ThreadQueues

/-- **Locks exclude.**  In every run in which each `lock_release` is by the thread whose `lock_acquire`
returned last and which has not released the lock since, the value of the lock's semaphore and the
number of threads inside add up to one, and the holder of a lock is the thread that holds it. -/
theorem lock_mutual_exclusion {M : Type} [ThreadQueues M] {mem : M} {value : ℕ → ℕ} {level : InterruptLevel}
    {intr : Bool} {s : LockState M}
    (h : Transition.Reach LockState.step ReleasedOnce (initThreads mem value level intr, LockHistory.start) s) (l : ℕ) :
    s.Exclusive l :=
  ((h.invariant (inv_init mem value level intr) fun _ _ _ hs hok ht => hs.step hok ht).phase l).exclusive

/-- Thread `2` takes the lock and is interrupted; thread `3` waits for it. -/
theorem lock_mutual_exclusion_contended :
    let mem : ListMem Queue ℕ := ⟨fun _ => .null, fun _ => .null, fun _ => 0⟩
    ∃ s, Transition.runs LockState.step ReleasedOnce (initThreads mem (fun _ => 0) .enabled true, LockHistory.start)
        [.call .createThread, .run, .call .createThread, .run, .call .exitThread, .run, .run,
          .call (.lockAcquire 0), .run, .run, .interrupt, .run, .call (.lockAcquire 0), .run, .run] = some s ∧
      s.Exclusive 0 ∧ s.2.holding 0 = [2] ∧ members s.1.mem (.sema (.binary 0)) = [3] := by
  intro mem
  have hrun : (Transition.runs LockState.step ReleasedOnce
      (initThreads mem (fun _ => 0) .enabled true, LockHistory.start)
      [.call .createThread, .run, .call .createThread, .run, .call .exitThread, .run, .run,
        .call (.lockAcquire 0), .run, .run, .interrupt, .run, .call (.lockAcquire 0), .run, .run]).map
      (fun s => (s.2.holding 0, members s.1.mem (.sema (.binary 0)))) = some ([2], [3]) := by
    decide +kernel
  obtain ⟨s, hs, he⟩ := Option.map_eq_some_iff.mp hrun
  obtain ⟨hh, hw⟩ := Prod.mk.injEq .. ▸ he
  exact ⟨s, hs, lock_mutual_exclusion (.of_runs hs) 0, hh, hw⟩

/-- A thread that releases the lock twice leaves the value at two. -/
theorem lock_release_twice :
    let mem : ListMem Queue ℕ := ⟨fun _ => .null, fun _ => .null, fun _ => 0⟩
    ∃ s, Transition.Reach LockState.step ReleasedByLast
        (initThreads mem (fun _ => 0) .enabled true, LockHistory.start) s ∧
      s.1.value (.binary 0) = 2 ∧ s.2.inside 0 = [] ∧ ¬ s.Exclusive 0 := by
  intro mem
  have hrun : (Transition.runs LockState.step ReleasedByLast
      (initThreads mem (fun _ => 0) .enabled true, LockHistory.start)
      [.call (.lockAcquire 0), .run, .run, .call (.lockRelease 0), .run, .run, .call (.lockRelease 0), .run,
        .run]).map (fun s => (s.1.value (.binary 0), s.2.inside 0)) = some (2, []) := by
    decide +kernel
  obtain ⟨s, hs, he⟩ := Option.map_eq_some_iff.mp hrun
  obtain ⟨hv, hi⟩ := Prod.mk.injEq .. ▸ he
  refine ⟨s, .of_runs hs, hv, hi, fun h => ?_⟩
  have hsum := h.sum
  rw [hv, hi] at hsum
  exact absurd hsum (by decide)

end Dunkos
