import Dunkos.Scheduler
import Dunkos.Lib.Reach

/-! # The places of threads

`Proper` says how threads use the functions: `thread_block` is for threads that are running or ready,
`thread_unblock` for threads that are blocked and on no list, `condvar_signal_one` finds a thread to
signal, and no thread is interrupted in `condvar_wait` between `list_push_back` and `block_current`.

`Settled` says where a thread is that does not run, `Placed` that all others are settled and the running
thread is on no list, and `Inv` is what every proper run on sequences keeps.  The kernel on linked lists
refines the one on sequences in proper runs (`Refines.step`); `thread_places` reads the places of threads
off the linked lists. -/

namespace Dunkos

open ThreadQueues

/-! ### Proper use -/

namespace Kernel
variable {M : Type} [ThreadQueues M]

/-- What a statement needs. -/
def Allowed (k : Kernel M) : Stmt → Prop
  | .threadBlock thr => thr = k.running ∨ thr ∈ members k.mem .ready
  | .threadUnblock thr =>
      thr < k.nextTid ∧ thr ≠ k.running ∧ k.status thr = .blocked ∧ ∀ l, thr ∉ members k.mem l
  | .signalMove c => members k.mem (.cond c) ≠ []
  | _ => True

/-- The functions are used as they are meant to be, and no interrupt comes just before `condvar_wait`
blocks. -/
def Proper (k : Kernel M) : Action → Prop
  | .call _ => True
  | .run => ∀ stmt, k.next? = some stmt → k.Allowed stmt
  | .interrupt => ∀ c, k.next? ≠ some (.waitBlock c)

end Kernel

/-! ### Where threads are -/

/-- Where a thread is that does not run: a thread on a list of waiters is blocked, and a thread on no
list is blocked or dead.  A thread on the ready list is blocked only if `condvar_signal_one` moved it
there, which leaves the status alone. -/
structure Settled (a : Kernel Seqs) (t : ℕ) : Prop where
  ready : t ∈ a.mem .ready → a.status t = .blocked → ∃ l, a.cont t = lockAcquire l
  sema : ∀ s, t ∈ a.mem (.sema s) → a.status t = .blocked ∧ ∃ old xs, a.cont t = .decLoop s 0 old :: xs
  cond : ∀ c, t ∈ a.mem (.cond c) → a.status t = .blocked ∧ ∃ l, a.cont t = lockAcquire l
  off : t < a.nextTid → t ≠ a.idle → (∀ l, t ∉ a.mem l) → a.status t = .blocked ∨ a.status t = .dead

/-- All threads are settled. -/
structure AllSettled (a : Kernel Seqs) : Prop where
  queues : Queues a.mem
  exist : ∀ l, ∀ t ∈ a.mem l, t < a.nextTid
  settled : ∀ t, Settled a t

/-- All threads but the running one are settled, and that is on no list.  In the loop of `semaphore_dec`
it is not blocked any more. -/
structure Placed (a : Kernel Seqs) : Prop where
  queues : Queues a.mem
  exist : ∀ l, ∀ t ∈ a.mem l, t < a.nextTid
  others : ∀ t, t ≠ a.running → Settled a t
  off : ∀ l, a.running ∉ a.mem l
  awake : ∀ s value old, .decLoop s value old ∈ a.cont a.running → a.status a.running ≠ .blocked

/-- What proper runs keep: the running thread is on no list, but for the moment before `condvar_wait`
blocks. -/
structure Inv (a : Kernel Seqs) : Prop where
  sane : a.Sane
  queues : Queues a.mem
  exist : ∀ l, ∀ t ∈ a.mem l, t < a.nextTid
  others : ∀ t, t ≠ a.running → Settled a t
  waiting : ∀ l, a.running ∈ a.mem l → ∃ c lk, l = .cond c ∧ a.cont a.running = .waitBlock c :: lockAcquire lk
  awake : ∀ s value old, .decLoop s value old ∈ a.cont a.running → a.status a.running ≠ .blocked

/-- A thread that nothing happens to stays settled. -/
theorem Settled.congr {a a' : Kernel Seqs} {t : ℕ} (h : Settled a t) (hs : a'.status t = a.status t)
    (hc : a'.cont t = a.cont t) (hm : ∀ l, t ∈ a'.mem l ↔ t ∈ a.mem l) (hn : t < a'.nextTid → t < a.nextTid)
    (hi : a'.idle = a.idle) : Settled a' t where
  ready ht hb := by
    rw [hc]
    exact h.ready ((hm _).mp ht) (hs ▸ hb)
  sema s ht := by
    rw [hs, hc]
    exact h.sema s ((hm _).mp ht)
  cond c ht := by
    rw [hs, hc]
    exact h.cond c ((hm _).mp ht)
  off hlt hne hoff := by
    rw [hs]
    exact h.off (hn hlt) (hi ▸ hne) fun l hl => hoff l ((hm l).mpr hl)

/-- A thread on no list is settled when it is blocked or dead. -/
theorem Settled.of_off {a : Kernel Seqs} {t : ℕ} (hoff : ∀ l, t ∉ a.mem l)
    (hs : a.status t = .blocked ∨ a.status t = .dead) : Settled a t where
  ready ht := absurd ht (hoff _)
  sema _ ht := absurd ht (hoff _)
  cond _ ht := absurd ht (hoff _)
  off _ _ _ := hs

/-- A thread on the ready list is settled when it is not blocked. -/
theorem Settled.of_ready {a : Kernel Seqs} {t : ℕ} (hq : Queues a.mem) (ht : t ∈ a.mem .ready)
    (hs : a.status t = .blocked → ∃ l, a.cont t = lockAcquire l) : Settled a t where
  ready _ := hs
  sema s ht' := absurd ht' (hq.disjoint _ _ (by simp) t ht)
  cond c ht' := absurd ht' (hq.disjoint _ _ (by simp) t ht)
  off _ _ hoff := absurd ht (hoff _)

theorem Placed.inv {a : Kernel Seqs} (h : Placed a) (hs : a.Sane) : Inv a :=
  ⟨hs, h.queues, h.exist, h.others, fun l hl => absurd hl (h.off l), h.awake⟩

namespace Kernel
variable {a a' : Kernel Seqs}

/-! ### Switches -/

/-- The next thread is the first that is ready, or the idle thread if there is none. -/
theorem scheduleNext_cases (h : a.scheduleNext = some a') :
    (a.mem .ready = [] ∧ a'.running = a.idle ∧ a'.mem = a.mem) ∨
      ∃ t ts, a.mem .ready = t :: ts ∧ a'.running = t ∧ a'.mem = Function.update a.mem .ready ts := by
  cases hx : a.mem .ready with
  | nil =>
      have hnext : a.nextThread = (a, some a.idle) := if_pos (List.isEmpty_iff.mpr hx)
      unfold scheduleNext at h
      rw [hnext] at h
      dsimp only at h
      split_ifs at h <;> cases h <;> exact .inl ⟨rfl, rfl, rfl⟩
  | cons t ts =>
      have hne : ¬ isEmpty a.mem .ready = true := by
        show ¬ (a.mem .ready).isEmpty = true
        rw [hx]
        exact Bool.false_ne_true
      have hnext : a.nextThread = ({ a with mem := Function.update a.mem .ready ts }, some t) := by
        unfold nextThread
        rw [if_neg hne, popFront_cons hx]
        rfl
      unfold scheduleNext at h
      rw [hnext] at h
      dsimp only at h
      split_ifs at h <;> cases h <;> exact .inr ⟨t, ts, rfl, rfl, rfl⟩

/-- What the idle thread runs is no loop of `semaphore_dec` and no `lock_acquire`. -/
structure IdleQuiet (a : Kernel Seqs) : Prop where
  cont : ∀ stmt ∈ a.cont a.idle, stmt = .startThread ∨ ∃ old, stmt = .isrReturn old

theorem IdleQuiet.not_mem {x : Stmt} (h : IdleQuiet a) (h₁ : x ≠ .startThread) (h₂ : ∀ old, x ≠ .isrReturn old) :
    x ∉ a.cont a.idle := by
  intro hs
  rcases h.cont x hs with rfl | ⟨old, rfl⟩
  · exact h₁ rfl
  · exact h₂ old rfl

/-- **Switches**: when all threads are settled, the one that runs next is taken off its list and the
others stay settled. -/
theorem AllSettled.scheduleNext (hs : AllSettled a) (hi : IdleQuiet a) (h : a.scheduleNext = some a') : Placed a' := by
  have hsw := scheduleNext_switch h
  rcases scheduleNext_cases h with ⟨hx, hr, hm⟩ | ⟨t, ts, hx, hr, hm⟩
  · -- the idle thread is on no list
    refine ⟨hm ▸ hs.queues, ?_, fun u _ => ?_, fun l hl => ?_, fun s value old hd => ?_⟩
    · rw [hm, hsw.nextTid]
      exact hs.exist
    · exact (hs.settled u).congr (congrFun hsw.status u) (congrFun hsw.cont u) (fun l => by rw [hm])
        (fun hu => hsw.nextTid ▸ hu) hsw.idle
    · rw [hm, hr] at hl
      cases l with
      | ready =>
          rw [hx] at hl
          cases hl
      | sema s =>
          obtain ⟨-, old, xs, hc⟩ := (hs.settled a.idle).sema s hl
          exact hi.not_mem (by simp) (by simp) (hc ▸ List.mem_cons_self)
      | cond c =>
          obtain ⟨-, l, hc⟩ := (hs.settled a.idle).cond c hl
          have hmem : Stmt.semaphoreDec (.binary l) ∈ a.cont a.idle := by
            rw [hc]
            exact List.mem_cons_self
          exact hi.not_mem (by simp) (by simp) hmem
    · rw [hsw.cont, hr] at hd
      exact absurd hd (hi.not_mem (by simp) (by simp))
  · obtain ⟨hq, hoff, hmem⟩ := hs.queues.pop hx
    refine ⟨hm ▸ hq, fun l u hu => ?_, fun u hu => ?_, ?_, fun s value old hd => ?_⟩
    · rw [hm] at hu
      rw [hsw.nextTid]
      exact hs.exist l u ((Queues.update_sublist (hx ▸ List.sublist_cons_self t ts) l).subset hu)
    · rw [hr] at hu
      exact (hs.settled u).congr (congrFun hsw.status u) (congrFun hsw.cont u) (fun l => by rw [hm]; exact hmem u hu l)
        (fun hu => hsw.nextTid ▸ hu) hsw.idle
    · rw [hm, hr]
      exact hoff
    · rw [hsw.cont, hr] at hd
      rw [hr, hsw.status]
      intro hb
      obtain ⟨l, hc⟩ := (hs.settled t).ready (hx ▸ List.mem_cons_self) hb
      rw [hc] at hd
      simp [lockAcquire] at hd

end Kernel

namespace Placed
open Kernel
variable {a a' : Kernel Seqs}

/-- The running thread gives up the processor: what it needs to be settled, on a list or off. -/
theorem allSettled (h : Placed a) (hr : Settled a a.running) : AllSettled a :=
  ⟨h.queues, h.exist, fun t => by
    by_cases ht : t = a.running
    · exact ht ▸ hr
    · exact h.others t ht⟩

theorem yieldCurrent (h : Placed a) (hr : a.running < a.nextTid) (hi : IdleQuiet a) (hy : a.yieldCurrent = some a') :
    Placed a' := by
  unfold Kernel.yieldCurrent at hy
  split_ifs at hy with hs
  · have hq := h.queues.push .ready h.off
    have hmem : a.running ∈ pushBack a.mem .ready (.node a.running) .ready := mem_push.mpr (.inr ⟨rfl, rfl⟩)
    apply AllSettled.scheduleNext (a := { a with mem := pushBack a.mem .ready (.node a.running) }) _ ⟨hi.cont⟩ hy
    refine ⟨hq, fun l t ht => ?_, fun t => ?_⟩
    · rcases mem_push.mp ht with ht | ⟨rfl, -⟩
      · exact h.exist l t ht
      · exact hr
    · by_cases ht : t = a.running
      · exact .of_ready hq (ht ▸ hmem) fun hb => absurd (ht ▸ hb) hs
      · refine (h.others t ht).congr rfl rfl (fun l => ?_) id rfl
        rw [mem_push]
        simp only [ht, false_and, or_false]
  · refine AllSettled.scheduleNext (h.allSettled ?_) hi hy
    exact .of_off h.off (.inl (not_not.mp hs))

theorem exitThread (h : Placed a) (hi : IdleQuiet a) (he : a.exitThread = some a') : Placed a' := by
  apply AllSettled.scheduleNext (a := a.disableInterrupts.setStatus a.running .dead) _ ⟨hi.cont⟩ he
  refine ⟨h.queues, h.exist, fun t => ?_⟩
  by_cases ht : t = a.running
  · subst ht
    exact .of_off h.off (.inr (Function.update_self ..))
  · exact (h.others t ht).congr (Function.update_of_ne ht _ _) rfl (fun _ => Iff.rfl) id rfl

/-- `thread_unblock` of a thread on no list. -/
theorem threadUnblock (h : Placed a) {thr : ℕ} (hlt : thr < a.nextTid) (hr : thr ≠ a.running)
    (hoff : ∀ l, thr ∉ a.mem l) : Placed (a.threadUnblock thr) := by
  have hmem : ∀ t l, t ≠ thr → (t ∈ (if thr ≠ a.idle then pushBack a.mem .ready (.node thr) else a.mem) l ↔
      t ∈ a.mem l) := by
    intro t l ht
    split_ifs
    · rw [mem_push]
      simp only [ht, false_and, or_false]
    · exact Iff.rfl
  rw [threadUnblock_eq]
  refine ⟨?_, fun l t ht => ?_, fun t ht => ?_, fun l hl => ?_, fun s value old hd hb => ?_⟩
  · show Queues (if _ then _ else _)
    split_ifs
    · exact h.queues.push .ready hoff
    · exact h.queues
  · by_cases htt : t = thr
    · exact htt ▸ hlt
    · exact h.exist l t ((hmem t l htt).mp ht)
  · by_cases htt : t = thr
    · subst htt
      by_cases hidle : t = a.idle
      · -- the idle thread is not pushed
        refine ⟨fun ht' => ?_, fun s ht' => ?_, fun c ht' => ?_, fun _ hne => absurd hidle hne⟩ <;>
          exact absurd ((if_neg (not_not.mpr hidle) : (if t ≠ a.idle then _ else a.mem) = a.mem) ▸ ht') (hoff _)
      · have hm : (if t ≠ a.idle then pushBack a.mem .ready (.node t) else a.mem) =
            pushBack a.mem .ready (.node t) := if_pos hidle
        refine .of_ready ?_ ?_ fun hb => ?_
        · show Queues (if _ then _ else _)
          rw [hm]
          exact h.queues.push .ready hoff
        · show t ∈ (if _ then _ else _ : Seqs) .ready
          rw [hm]
          exact mem_push.mpr (.inr ⟨rfl, rfl⟩)
        · have hst : Function.update a.status t .ready t = .blocked := hb
          rw [Function.update_self] at hst
          cases hst
    · exact (h.others t ht).congr (Function.update_of_ne htt _ _) rfl (fun l => hmem t l htt) id rfl
  · exact h.off l ((hmem a.running l hr.symm).mp hl)
  · exact h.awake s value old hd ((Function.update_of_ne hr.symm _ _).symm.trans hb)

/-- Nothing changes that places depend on. -/
theorem congr (h : Placed a) (hm : a'.mem = a.mem) (hs : a'.status = a.status) (hr : a'.running = a.running)
    (hn : a'.nextTid = a.nextTid) (hi : a'.idle = a.idle) (hc : ∀ t, t ≠ a.running → a'.cont t = a.cont t)
    (hd : ∀ s value old, .decLoop s value old ∈ a'.cont a.running → .decLoop s value old ∈ a.cont a.running) :
    Placed a' where
  queues := hm ▸ h.queues
  exist := by
    rw [hm, hn]
    exact h.exist
  others t ht := by
    rw [hr] at ht
    exact (h.others t ht).congr (congrFun hs t) (hc t ht) (fun l => by rw [hm]) (fun hlt => hn ▸ hlt) hi
  off := by
    rw [hm, hr]
    exact h.off
  awake s value old hmem := by
    rw [hr] at hmem ⊢
    rw [hs]
    exact h.awake s value old (hd s value old hmem)

theorem setInterruptLevel (h : Placed a) (level : InterruptLevel) : Placed (a.setInterruptLevel level) :=
  h.congr rfl rfl rfl rfl rfl (fun _ _ => rfl) fun _ _ _ => id

/-- The first of a list is taken off it: it is settled when it is blocked. -/
theorem popFront (h : Placed a) {l : Queue} {w : ℕ} {ws : List ℕ} (hx : a.mem l = w :: ws)
    (hb : a.status w = .blocked) : Placed { a with mem := Function.update a.mem l ws } := by
  obtain ⟨hq, hoff, hmem⟩ := h.queues.pop hx
  have hsub := Queues.update_sublist (q := a.mem) (hx ▸ List.sublist_cons_self w ws)
  refine ⟨hq, fun l' t ht => h.exist l' t ((hsub l').subset ht), fun t ht => ?_, fun l' hl => ?_, h.awake⟩
  · by_cases hw : t = w
    · exact .of_off (hw ▸ hoff) (.inl (hw ▸ hb))
    · exact (h.others t ht).congr rfl rfl (hmem t hw) id rfl
  · exact h.off l' ((hsub l').subset hl)

theorem waiter_ne (h : Placed a) {l : Queue} {w : ℕ} {ws : List ℕ} (hx : a.mem l = w :: ws) : w ≠ a.running := by
  intro he
  apply h.off l
  rw [hx, he]
  exact List.mem_cons_self

theorem wakeWaiter (h : Placed a) {s : Sema} (hw : a.wakeWaiter s = some a') : Placed a' := by
  unfold Kernel.wakeWaiter at hw
  split_ifs at hw with he
  · cases hw
    exact h
  · obtain ⟨w, ws, hx⟩ := List.exists_cons_of_ne_nil fun hx => he (List.isEmpty_iff.mpr hx)
    have hw' : w ∈ a.mem (.sema s) := hx ▸ List.mem_cons_self
    have hb := ((h.others w (h.waiter_ne hx)).sema s hw').1
    rw [popFront_cons hx] at hw
    cases hw
    exact (h.popFront hx hb).threadUnblock (h.exist _ _ hw') (h.waiter_ne hx) (h.queues.pop hx).2.1

theorem semaphoreInc (h : Placed a) {s : Sema} (hi : a.semaphoreInc s = some a') : Placed a' := by
  obtain ⟨a₁, h₁, rfl⟩ := Option.map_eq_some_iff.mp hi
  apply Placed.setInterruptLevel
  refine wakeWaiter ?_ h₁
  exact h.congr rfl rfl rfl rfl rfl (fun _ _ => rfl) fun _ _ _ => id

/-- `condvar_signal_one` moves a thread that waits. -/
theorem signalMove (h : Placed a) {c : ℕ} {w : ℕ} {ws : List ℕ} (hx : a.mem (.cond c) = w :: ws) :
    Placed { a with mem := pushBack (Function.update a.mem (.cond c) ws) .ready (.node w) } := by
  have hw : w ∈ a.mem (.cond c) := hx ▸ List.mem_cons_self
  obtain ⟨hb, hc⟩ := (h.others w (h.waiter_ne hx)).cond c hw
  have hp := h.popFront hx hb
  have hq := hp.queues.push .ready (h.queues.pop hx).2.1
  refine ⟨hq, fun l t ht => ?_, fun t ht => ?_, fun l hl => ?_, h.awake⟩
  · rcases mem_push.mp ht with ht | ⟨rfl, -⟩
    · exact hp.exist l t ht
    · exact h.exist _ _ hw
  · by_cases htw : t = w
    · subst htw
      exact .of_ready hq (mem_push.mpr (.inr ⟨rfl, rfl⟩)) fun _ => hc
    · refine (hp.others t ht).congr rfl rfl (fun l => ?_) id rfl
      rw [mem_push]
      simp only [htw, false_and, or_false]
  · rcases mem_push.mp hl with hl | ⟨he, -⟩
    · exact hp.off l hl
    · exact h.waiter_ne hx he.symm

/-- `thread_block` of a thread that is ready. -/
theorem threadBlock (h : Placed a) {thr : ℕ} (hr : thr ≠ a.running) (ht : thr ∈ a.mem .ready) :
    Placed { a.setStatus thr .blocked with mem := remove a.mem .ready (.node thr) } := by
  obtain ⟨hq, hoff, hmem⟩ := h.queues.erase ht
  have hsub := Queues.update_sublist (q := a.mem) (l := .ready) (List.erase_sublist (a := thr))
  refine ⟨hq, fun l t ht => h.exist l t ((hsub l).subset ht), fun t htr => ?_, fun l hl => ?_, fun s value old hd hb => ?_⟩
  · by_cases hw : t = thr
    · subst hw
      exact .of_off hoff (.inl (Function.update_self ..))
    · exact (h.others t htr).congr (Function.update_of_ne hw _ _) rfl (hmem t hw) id rfl
  · exact h.off l ((hsub l).subset hl)
  · exact h.awake s value old hd ((Function.update_of_ne hr.symm _ _).symm.trans hb)

theorem createThread (h : Placed a) (hr : a.running < a.nextTid) : Placed a.createThread := by
  have hoff : ∀ l, a.nextTid ∉ a.mem l := fun l hl => Nat.lt_irrefl _ (h.exist l _ hl)
  have hne : ∀ {t}, t < a.nextTid → t ≠ a.nextTid := fun ht => Nat.ne_of_lt ht
  apply Placed.threadUnblock (a := a.newThread)
  · refine ⟨h.queues, fun l t ht => Nat.lt_succ_of_lt (h.exist l t ht), fun t ht => ?_, h.off, fun s value old hd hb => ?_⟩
    · by_cases hn : t = a.nextTid
      · subst hn
        exact .of_off hoff (.inl (Function.update_self ..))
      · refine (h.others t ht).congr (Function.update_of_ne hn _ _) (Function.update_of_ne hn _ _) (fun _ => Iff.rfl)
          (fun hlt => ?_) rfl
        exact Nat.lt_of_le_of_ne (Nat.le_of_lt_succ hlt) hn
    · apply h.awake s value old
      · exact (Function.update_of_ne (hne hr) _ _ : a.newThread.cont a.running = _) ▸ hd
      · exact (Function.update_of_ne (hne hr) _ _).symm.trans hb
  · exact Nat.lt_succ_self _
  · exact (hne hr).symm
  · exact hoff

end Placed

namespace Kernel
variable {a a' : Kernel Seqs}

/-- `block_current` is a switch: a thread that is blocked is not put on the ready list. -/
theorem blockCurrent_eq (a : Kernel Seqs) :
    a.blockCurrent = (a.disableInterrupts.setStatus a.running .blocked).scheduleNext := by
  unfold blockCurrent yieldCurrent
  exact if_neg fun hne => hne (Function.update_self ..)

/-- The running thread blocks, on a list or off. -/
theorem blockCurrent_placed (hq : Queues a.mem) (hex : ∀ l, ∀ t ∈ a.mem l, t < a.nextTid)
    (ho : ∀ t, t ≠ a.running → Settled a t) (hr : Settled (a.disableInterrupts.setStatus a.running .blocked) a.running)
    (hi : IdleQuiet a) (hb : a.blockCurrent = some a') : Placed a' := by
  rw [blockCurrent_eq] at hb
  refine AllSettled.scheduleNext (a := a.disableInterrupts.setStatus a.running .blocked) ⟨hq, hex, fun t => ?_⟩
    ⟨hi.cont⟩ hb
  by_cases ht : t = a.running
  · exact ht ▸ hr
  · exact (ho t ht).congr (Function.update_of_ne ht _ _) rfl (fun _ => Iff.rfl) id rfl

end Kernel

namespace Placed
open Kernel
variable {a a' : Kernel Seqs}

theorem blockCurrent (h : Placed a) (hi : IdleQuiet a) (hb : a.blockCurrent = some a') : Placed a' :=
  blockCurrent_placed h.queues h.exist h.others (.of_off h.off (.inl (Function.update_self ..))) hi hb

/-- A thread that finds `value` zero goes to the list of waiters. -/
theorem decLoop (h : Placed a) {s : Sema} {value : ℕ} {old : InterruptLevel} (hr : a.running < a.nextTid)
    (hi : IdleQuiet a) (hne : a.running ≠ a.idle) (hd : a.decLoop s value old = some a') : Placed a' := by
  unfold Kernel.decLoop at hd
  split_ifs at hd with hv
  · subst hv
    have hq := h.queues.push (.sema s) h.off
    refine blockCurrent_placed (a := ({ a with mem := pushBack a.mem (.sema s) (.node a.running) }).enter
      [.decLoop s 0 old]) hq (fun l t ht => ?_) (fun t ht => ?_) ?_ ⟨?_⟩ hd
    · rcases mem_push.mp ht with ht | ⟨rfl, -⟩
      · exact h.exist l t ht
      · exact hr
    · refine (h.others t ht).congr rfl (Function.update_of_ne ht _ _) (fun l => ?_) id rfl
      have htr : t ≠ a.running := ht
      show t ∈ pushBack a.mem (.sema s) (.node a.running) l ↔ _
      rw [mem_push]
      simp only [htr, false_and, or_false]
    · have hself : a.running ∈ pushBack a.mem (.sema s) (.node a.running) (.sema s) := mem_push.mpr (.inr ⟨rfl, rfl⟩)
      have hst : Function.update a.status a.running .blocked a.running = .blocked := Function.update_self ..
      have hcont : Function.update a.cont a.running (.decLoop s 0 old :: a.cont a.running) a.running =
          .decLoop s 0 old :: a.cont a.running := Function.update_self ..
      refine ⟨fun ht => absurd ht (hq.disjoint _ _ (by simp) _ hself), fun s' ht => ⟨hst, ?_⟩,
        fun c ht => absurd ht (hq.disjoint _ _ (by simp) _ hself), fun _ _ hoff => absurd hself (hoff _)⟩
      by_cases hs : s' = s
      · subst hs
        exact ⟨old, a.cont a.running, hcont⟩
      · exact absurd ht (hq.disjoint _ _ (by simp [Ne.symm hs]) _ hself)
    · show ∀ stmt ∈ Function.update a.cont a.running _ a.idle, _
      rw [Function.update_of_ne hne.symm]
      exact hi.cont
  · cases hd
    exact h.congr rfl rfl rfl rfl rfl (fun _ _ => rfl) fun _ _ _ => id

end Placed

/-! ### Statements and steps -/

namespace Inv
open Kernel
variable {a a' : Kernel Seqs} {stmt : Stmt} {xs : List Stmt}

theorem placed (h : Inv a) (hn : ∀ c, a.next? ≠ some (.waitBlock c)) : Placed a where
  queues := h.queues
  exist := h.exist
  others := h.others
  awake := h.awake
  off l hl := by
    obtain ⟨c, lk, -, hc⟩ := h.waiting l hl
    exact hn c (next?_of_cont hc)

theorem idleQuiet_pop (h : Inv a) (hc : a.cont a.running = stmt :: xs) : IdleQuiet (a.pop xs) := by
  have hidle := h.sane.idle_cont
  refine ⟨?_⟩
  show ∀ stmt ∈ Function.update a.cont a.running xs a.idle, _
  by_cases hi : a.idle = a.running
  · rw [hi, Function.update_self]
    rw [hi, hc] at hidle
    exact fun s hs => hidle s (List.mem_cons_of_mem _ hs)
  · rw [Function.update_of_ne hi]
    exact hidle

theorem placed_pop (h : Inv a) (hc : a.cont a.running = stmt :: xs) (hne : ∀ c, stmt ≠ .waitBlock c) :
    Placed (a.pop xs) := by
  have hp : Placed a := h.placed fun c hn => hne c (Option.some.inj ((next?_of_cont hc).symm.trans hn))
  refine hp.congr rfl rfl rfl rfl rfl (fun t ht => pop_others a xs ht) fun s value old hd => ?_
  rw [pop_self] at hd
  rw [hc]
  exact List.mem_cons_of_mem _ hd

/-- A thread that runs `semaphore_dec` is not the idle thread. -/
theorem running_ne_idle (h : Inv a) (hc : a.cont a.running = stmt :: xs) (h₁ : stmt ≠ .startThread)
    (h₂ : ∀ old, stmt ≠ .isrReturn old) : a.running ≠ a.idle := by
  intro he
  apply IdleQuiet.not_mem ⟨h.sane.idle_cont⟩ h₁ h₂
  rw [← he, hc]
  exact List.mem_cons_self

/-- Just before `condvar_wait` blocks the thread is on the list already. -/
theorem waitBlock (h : Inv a) {c : ℕ} (hc : a.cont a.running = .waitBlock c :: xs)
    (hb : (a.pop xs).blockCurrent = some a') : Placed a' := by
  have ho : ∀ t, t ≠ a.running → Settled (a.pop xs) t := fun t ht =>
    (h.others t ht).congr rfl (pop_others a xs ht) (fun _ => Iff.rfl) id rfl
  have hst : Function.update a.status a.running .blocked a.running = .blocked := Function.update_self ..
  refine blockCurrent_placed (a := a.pop xs) h.queues h.exist ho ?_ (h.idleQuiet_pop hc) hb
  have hon : ∀ l, a.running ∈ a.mem l → ∃ c' lk, l = .cond c' ∧ (a.pop xs).cont a.running = lockAcquire lk := by
    intro l hl
    obtain ⟨c', lk, hl', hc'⟩ := h.waiting l hl
    rw [hc, List.cons.injEq] at hc'
    exact ⟨c', lk, hl', (pop_self a xs).trans hc'.2⟩
  refine ⟨fun ht => ?_, fun s ht => ?_, fun c' ht => ?_, fun _ _ _ => .inl hst⟩
  · obtain ⟨c', lk, hl, -⟩ := hon _ ht
    cases hl
  · obtain ⟨c', lk, hl, -⟩ := hon _ ht
    cases hl
  · obtain ⟨c'', lk, -, hcont⟩ := hon _ ht
    exact ⟨hst, lk, hcont⟩

/-- What runs after a statement that ends in a switch, or goes on with the same thread. -/
theorem exec (h : Inv a) (hc : a.cont a.running = stmt :: xs) (hok : a.Allowed stmt)
    (hs : (a.pop xs).exec stmt = some a') (hsane : a'.Sane) : Inv a' := by
  have hr : (a.pop xs).running < (a.pop xs).nextTid := h.sane.exists_running
  have hi := h.idleQuiet_pop hc
  cases stmt with
  | waitBlock c => exact (h.waitBlock hc hs).inv hsane
  | waitPush c =>
      have hp := h.placed_pop hc (by simp)
      cases (hc ▸ h.sane.formed a.running : Formed (.waitPush c :: xs)) with
      | single hx => exact hx.elim
      | push _ lk =>
          have hr' : a.running < a.nextTid := h.sane.exists_running
          cases hs
          refine ⟨hsane, hp.queues.push _ hp.off, fun l t ht => ?_, fun t ht => ?_, fun l hl => ?_, hp.awake⟩
          · rcases mem_push.mp ht with ht | ⟨rfl, -⟩
            · exact hp.exist l t ht
            · exact hr'
          · refine (hp.others t ht).congr rfl rfl (fun l => ?_) id rfl
            have htr : t ≠ a.running := ht
            show t ∈ pushBack a.mem (.cond c) (.node a.running) l ↔ _
            rw [mem_push]
            simp only [htr, false_and, or_false]
            exact Iff.rfl
          · rcases mem_push.mp hl with hl | ⟨-, rfl⟩
            · exact absurd hl (hp.off l)
            · exact ⟨c, lk, rfl, pop_self a _⟩
  | signalMove c =>
      have hp := h.placed_pop hc (by simp)
      obtain ⟨w, ws, hx⟩ := List.exists_cons_of_ne_nil hok
      have hx' : a.mem (.cond c) = w :: ws := hx
      have he : (a.pop xs).exec (.signalMove c) =
          some { a.pop xs with mem := pushBack (Function.update a.mem (.cond c) ws) .ready (.node w) } := by
        unfold Kernel.exec
        dsimp only
        rw [show (a.pop xs).mem = a.mem from rfl, popFront_cons hx']
      rw [he] at hs
      cases hs
      exact (hp.signalMove hx').inv hsane
  | yieldCurrent => exact ((h.placed_pop hc (by simp)).yieldCurrent hr hi hs).inv hsane
  | blockCurrent => exact ((h.placed_pop hc (by simp)).blockCurrent hi hs).inv hsane
  | exitThread => exact ((h.placed_pop hc (by simp)).exitThread hi hs).inv hsane
  | threadBlock thr =>
      have hp := h.placed_pop hc (by simp)
      have hs' : (a.pop xs).threadBlock thr = some a' := hs
      unfold Kernel.threadBlock at hs'
      split_ifs at hs' with ht
      · exact (hp.blockCurrent hi hs').inv hsane
      · cases hs'
        exact (hp.threadBlock ht (hok.resolve_left ht)).inv hsane
  | threadUnblock thr =>
      cases hs
      obtain ⟨hlt, hne, -, hoff⟩ := hok
      exact ((h.placed_pop hc (by simp)).threadUnblock hlt hne hoff).inv hsane
  | createThread =>
      cases hs
      exact ((h.placed_pop hc (by simp)).createThread hr).inv hsane
  | semaphoreInc s => exact ((h.placed_pop hc (by simp)).semaphoreInc hs).inv hsane
  | semaphoreDec s =>
      have hp := (h.placed_pop hc (by simp)).setInterruptLevel .disabled
      exact (hp.decLoop hr ⟨hi.cont⟩ (h.running_ne_idle hc (by simp) (by simp)) hs).inv hsane
  | decLoop s value old =>
      have hp := h.placed_pop hc (by simp)
      exact (hp.decLoop hr hi (h.running_ne_idle hc (by simp) (by simp)) hs).inv hsane
  | signalAll c l =>
      have hp := h.placed_pop hc (by simp)
      have hs' : (if isEmpty a.mem (.cond c) then a.pop xs
          else (a.pop xs).enter (condvarSignalOne c l ++ condvarSignalAll c l)) = a' := Option.some.inj hs
      split_ifs at hs'
      · exact hs' ▸ hp.inv (hs' ▸ hsane)
      · subst hs'
        refine Placed.inv (hp.congr rfl rfl rfl rfl rfl (fun t ht => enter_others _ _ ht) fun s value old hd => ?_) hsane
        rw [enter_self, List.mem_append] at hd
        refine hd.resolve_left ?_
        simp [condvarSignalOne, condvarSignalAll, lockRelease, lockAcquire]
  | _ =>
      have hp := h.placed_pop hc (by simp)
      cases hs
      refine Placed.inv ?_ hsane
      exact hp.congr rfl rfl rfl rfl rfl (fun _ _ => rfl) fun _ _ _ => id

/-- **One step** of proper use. -/
theorem step (h : Inv a) {act : Action} (hok : a.Proper act) (hs : a.step act = some a') : Inv a' := by
  have hsane := h.sane.step hs
  cases act with
  | call op =>
      obtain ⟨-, hc, rfl⟩ := step_call hs
      have hp : Placed a := by
        apply h.placed
        intro c hn
        unfold next? at hn
        rw [hc] at hn
        cases hn
      refine Placed.inv (hp.congr rfl rfl rfl rfl rfl (fun t ht => enter_others _ _ ht) fun s value old hd => ?_) hsane
      rw [enter_self, List.mem_append] at hd
      refine hd.resolve_left ?_
      cases op <;> simp [ThreadOp.body, lockAcquire, lockRelease, condvarWait, condvarSignalOne, condvarSignalAll]
  | run =>
      obtain ⟨stmt, xs, hc, -, he⟩ := run_effect h.sane hs
      exact h.exec hc (hok stmt (next?_of_cont hc)) he hsane
  | interrupt =>
      have hp : Placed (a.disableInterrupts.enter [.isrReturn a.level]) := by
        refine (h.placed hok).congr rfl rfl rfl rfl rfl (fun t ht => enter_others a.disableInterrupts _ ht)
          fun s value old hd => ?_
        rw [show a.running = a.disableInterrupts.running from rfl, enter_self, List.mem_append] at hd
        refine hd.resolve_left ?_
        simp
      refine (hp.yieldCurrent h.sane.exists_running ⟨?_⟩ (step_interrupt hs).2).inv hsane
      show ∀ stmt ∈ Function.update a.cont a.running (.isrReturn a.level :: a.cont a.running) a.idle, _
      by_cases hi : a.idle = a.running
      · rw [hi, Function.update_self, ← hi, List.forall_mem_cons]
        exact ⟨.inr ⟨_, rfl⟩, h.sane.idle_cont⟩
      · rw [Function.update_of_ne hi]
        exact h.sane.idle_cont

end Inv

/-! ### Refinement of runs -/

namespace Refines
open Kernel
variable {k : Kernel (ListMem Queue ℕ)} {a : Kernel Seqs}

theorem pop (h : Refines k a) (xs : List Stmt) : Refines (k.pop xs) (a.pop xs) :=
  h.update fun th => ((Kernel.mk th a.mem).pop xs).toThreads

/-- A statement of a proper run does the same on lists and on sequences. -/
theorem exec (h : Refines k a) (hi : Inv a) {stmt : Stmt} {xs : List Stmt} (hc : a.cont a.running = stmt :: xs)
    (hok : a.Allowed stmt) : Option.Rel Refines ((k.pop xs).exec stmt) ((a.pop xs).exec stmt) := by
  have hp := h.pop xs
  cases stmt with
  | waitBlock c => exact hp.blockCurrent
  | yieldCurrent => exact hp.yieldCurrent fun _ => (hi.placed_pop hc (by simp)).off
  | blockCurrent => exact hp.blockCurrent
  | threadBlock thr => exact hp.threadBlock hok
  | threadUnblock thr => exact .some (hp.threadUnblock fun _ => hok.2.2.2)
  | exitThread => exact hp.exitThread
  | createThread =>
      refine .some (hp.createThread fun l hl => ?_)
      exact Nat.lt_irrefl _ (hi.exist l _ hl)
  | semaphoreInc s => exact hp.semaphoreInc s
  | semaphoreDec s =>
      have hv : (k.pop xs).value s = (a.pop xs).value s := congrFun (congrArg Threads.value hp.threads) s
      have hl : (k.pop xs).level = (a.pop xs).level := congrArg Threads.level hp.threads
      show Option.Rel Refines ((k.pop xs).disableInterrupts.decLoop s ((k.pop xs).value s) (k.pop xs).level) _
      rw [hv, hl]
      exact (hp.setInterruptLevel .disabled).decLoop s _ fun _ => (hi.placed_pop hc (by simp)).off
  | decLoop s value old => exact hp.decLoop s old fun _ => (hi.placed_pop hc (by simp)).off
  | waitPush c =>
      refine .some ⟨hp.threads, ?_⟩
      have hr : (k.pop xs).running = (a.pop xs).running := congrArg Threads.running hp.threads
      rw [hr]
      exact pushBack_represents hp.mem _ (hi.placed_pop hc (by simp)).off
  | signalMove c =>
      obtain ⟨w, ws, hx⟩ := List.exists_cons_of_ne_nil hok
      obtain ⟨h₁, h₂⟩ := popFront_represents h.mem (.cond c)
      have hx' : popFront a.mem (.cond c) = (Function.update a.mem (.cond c) ws, .node w) := popFront_cons hx
      refine .some ⟨hp.threads, ?_⟩
      show Represents (pushBack (popFront k.mem (.cond c)).1 .ready (popFront k.mem (.cond c)).2)
        (pushBack (popFront a.mem (.cond c)).1 .ready (popFront a.mem (.cond c)).2)
      rw [h₂]
      rw [hx'] at h₁ ⊢
      exact pushBack_represents h₁ _ (hi.queues.pop hx).2.1
  | signalAll c l =>
      refine .some (rel_ite ?_ (fun _ => hp) fun _ => ?_)
      · rw [isEmpty_eq hp.mem]
      · exact hp.update fun th => ((Kernel.mk th a.mem).enter (condvarSignalOne c l ++ condvarSignalAll c l)).toThreads
  | startThread => exact .some (hp.setInterruptLevel _)
  | isrReturn old => exact .some ((hp.setInterruptLevel old).update fun th => { th with intr := true })
  | setHolder l => exact .some (hp.update fun th => { th with holder := Function.update th.holder l (some th.running) })
  | clearHolder l => exact .some (hp.update fun th => { th with holder := Function.update th.holder l none })

theorem next? (h : Refines k a) : k.next? = a.next? := by
  unfold Kernel.next?
  rw [h.threads]

theorem sane (h : Refines k a) (hs : a.Sane) : k.Sane := by
  obtain ⟨h₁, h₂, h₃, h₄⟩ := hs
  rw [← h.threads] at h₁ h₂ h₃ h₄
  exact ⟨h₁, h₂, h₃, h₄⟩

/-- What is proper on lists is proper on sequences. -/
theorem proper (h : Refines k a) {act : Action} (hok : k.Proper act) : a.Proper act := by
  have hm : ∀ l, members k.mem l = a.mem l := members_eq h.mem
  cases act with
  | call op => trivial
  | interrupt =>
      intro c
      rw [← h.next?]
      exact hok c
  | run =>
      intro stmt hs
      have hst := hok stmt (h.next?.trans hs)
      cases stmt with
      | threadBlock thr =>
          show thr = a.running ∨ thr ∈ a.mem .ready
          rw [← hm, ← h.threads]
          exact hst
      | threadUnblock thr =>
          show thr < a.nextTid ∧ thr ≠ a.running ∧ a.status thr = .blocked ∧ ∀ l, thr ∉ a.mem l
          simp only [← hm, ← h.threads]
          exact hst
      | signalMove c =>
          show a.mem (.cond c) ≠ []
          rw [← hm]
          exact hst
      | _ => trivial

/-- **One step** of proper use is the same on lists and on sequences. -/
theorem step (h : Refines k a) (hi : Inv a) {act : Action} (hok : a.Proper act) :
    Option.Rel Refines (k.step act) (a.step act) := by
  have hth := h.threads
  cases act with
  | call op =>
      refine rel_ite ?_ (fun _ => .some ?_) fun _ => .none
      · rw [hth]
      · exact h.update fun th => ((Kernel.mk th a.mem).enter op.body).toThreads
  | run =>
      unfold Kernel.step
      dsimp only
      rw [show k.cont k.running = a.cont a.running by rw [hth]]
      cases hc : a.cont a.running with
      | nil => exact .none
      | cons stmt xs =>
          exact h.exec hi hc (hok stmt (Kernel.next?_of_cont hc))
  | interrupt =>
      refine rel_ite (by rw [hth]) (fun _ => ?_) fun _ => .none
      have hd := h.update fun th =>
        ((Kernel.mk th a.mem).disableInterrupts.enter [.isrReturn th.level]).toThreads
      refine hd.yieldCurrent fun _ => ?_
      exact (hi.placed hok).off

end Refines

/-- A step of a proper run is followed on sequences. -/
theorem Refines.follow {k k' : Kernel (ListMem Queue ℕ)} {a : Kernel Seqs} {act : Action} (h : Refines k a) (hi : Inv a)
    (hok : k.Proper act) (hs : k.step act = some k') : ∃ a', a.step act = some a' ∧ Refines k' a' ∧ Inv a' := by
  have hrel := h.step hi (h.proper hok)
  rw [hs] at hrel
  cases ha : a.step act with
  | none =>
      rw [ha] at hrel
      cases hrel
  | some a' =>
      rw [ha] at hrel
      cases hrel with
      | some hr' => exact ⟨a', rfl, hr', hi.step (h.proper hok) ha⟩

/-- The kernel on linked lists, and sequences for its lists. -/
def Followed (k : Kernel (ListMem Queue ℕ)) : Prop := ∃ a, Refines k a ∧ Inv a

theorem Followed.step {k k' : Kernel (ListMem Queue ℕ)} {act : Action} (h : Followed k) (hok : k.Proper act)
    (hs : k.step act = some k') : Followed k' := by
  obtain ⟨a, hr, hi⟩ := h
  obtain ⟨a', -, hr', hi'⟩ := hr.follow hi hok hs
  exact ⟨a', hr', hi'⟩

/-! ### Reachable states -/

section
variable (value : ℕ → ℕ) (level : InterruptLevel) (intr : Bool)

theorem initThreads_refines {mem : ListMem Queue ℕ} (hm : Represents mem fun _ => []) :
    Refines (initThreads mem value level intr) (initThreads (fun _ => []) value level intr) := by
  unfold initThreads
  refine Refines.threadUnblock ?_ fun hne => absurd rfl hne
  exact ⟨rfl, hm⟩

theorem initThreads_inv : Inv (initThreads (fun _ => []) value level intr) := by
  have hoff : ∀ l t, t ∉ (initThreads (fun _ => [] : Seqs) value level intr).mem l := by
    intro l t
    rw [Kernel.initThreads_mem]
    exact List.not_mem_nil
  refine ⟨Kernel.initThreads_sane _ value level intr, ?_, fun l t ht => absurd ht (hoff l t), fun t ht => ?_,
    fun l hl => absurd hl (hoff l _), fun s v old hd => ?_⟩
  · rw [Kernel.initThreads_mem]
    exact ⟨fun _ => List.nodup_nil, fun _ _ _ _ ht => absurd ht List.not_mem_nil⟩
  · refine ⟨fun h => absurd h (hoff _ t), fun _ h => absurd h (hoff _ t), fun _ h => absurd h (hoff _ t),
      fun hlt hne _ => ?_⟩
    rw [Kernel.initThreads_running] at ht
    rw [Kernel.initThreads_nextTid] at hlt
    rw [Kernel.initThreads_idle] at hne
    omega
  · rw [Kernel.initThreads_running, Kernel.initThreads_cont] at hd
    simp at hd

/-- Initialised lists hold nothing: `init_threads` and what sets up the semaphores. -/
theorem initThreads_followed {mem : ListMem Queue ℕ} (hm : Represents mem fun _ => []) :
    Followed (initThreads mem value level intr) :=
  ⟨_, initThreads_refines value level intr hm, initThreads_inv value level intr⟩

end

theorem followed_of_reach {mem : ListMem Queue ℕ} (h₀ : ∀ l, Initialised mem l ∨ ZeroFilled mem l) {value : ℕ → ℕ}
    {level : InterruptLevel} {intr : Bool} {k : Kernel (ListMem Queue ℕ)}
    (h : Transition.Reach Kernel.step Kernel.Proper (initThreads mem value level intr) k) : Followed k :=
  h.invariant (initThreads_followed value level intr (.of_fresh h₀)) fun _ _ _ hk hok hs => hk.step hok hs

/-- The places of a thread. -/
inductive Place where
  | running
  | ready
  | waiters (l : Queue)
  | parked

/-- What it is to be in a place. -/
def Place.Holds (k : Kernel (ListMem Queue ℕ)) (t : ℕ) : Place → Prop
  | running => t = k.running ∧
      ∀ l, t ∈ members k.mem l → ∃ c lk, l = .cond c ∧ k.cont t = .waitBlock c :: lockAcquire lk
  | ready => t ≠ k.running ∧ (members k.mem .ready).count t = 1 ∧ (∀ l, l ≠ .ready → t ∉ members k.mem l) ∧
      (k.status t = .blocked → ∃ l, k.cont t = lockAcquire l)
  | waiters l => t ≠ k.running ∧ l ≠ .ready ∧ (members k.mem l).count t = 1 ∧
      (∀ l', l' ≠ l → t ∉ members k.mem l') ∧ k.status t = .blocked
  | parked => t ≠ k.running ∧ (∀ l, t ∉ members k.mem l) ∧ k.status t = .blocked

/-- The place of a thread on a list, or on none. -/
theorem Followed.place {k : Kernel (ListMem Queue ℕ)} (h : Followed k) {t : ℕ} (ht : t < k.nextTid) (hi : t ≠ k.idle)
    (hd : k.status t ≠ .dead) : ∃! p, Place.Holds k t p := by
  obtain ⟨a, hr, ha⟩ := h
  have hm : ∀ l, members k.mem l = a.mem l := members_eq hr.mem
  have hone : ∀ {l}, t ∈ a.mem l → (members k.mem l).count t = 1 := by
    intro l hl
    rw [hm]
    exact List.count_eq_one_of_mem (ha.queues.nodup l) hl
  have hpos : ∀ {l}, (members k.mem l).count t = 1 → t ∈ members k.mem l := by
    intro l hl
    apply List.count_pos_iff.mp
    rw [hl]
    exact Nat.one_pos
  have honly : ∀ {l l'}, t ∈ a.mem l → l' ≠ l → t ∉ members k.mem l' := by
    intro l l' hl hne
    rw [hm]
    exact ha.queues.disjoint l l' hne.symm t hl
  have hth := hr.threads
  by_cases htr : t = k.running
  · refine ⟨.running, ⟨htr, fun l hl => ?_⟩, fun p hp => ?_⟩
    · subst htr
      rw [hm, hth] at hl
      rw [hth]
      exact ha.waiting l hl
    · cases p with
      | running => rfl
      | ready => exact absurd htr hp.1
      | waiters l => exact absurd htr hp.1
      | parked => exact absurd htr hp.1
  · have hset : Settled a t := by
      apply ha.others
      rw [← hth]
      exact htr
    by_cases hon : ∃ l, t ∈ a.mem l
    · obtain ⟨l, hl⟩ := hon
      by_cases hready : l = .ready
      · subst hready
        refine ⟨.ready, ⟨htr, hone hl, fun l' hne => honly hl hne, ?_⟩, fun p hp => ?_⟩
        · rw [hth]
          exact hset.ready hl
        · cases p with
          | running => exact absurd hp.1 htr
          | ready => rfl
          | waiters l' => exact absurd (hpos hp.2.2.1) (honly hl hp.2.1)
          | parked => exact absurd (hm _ ▸ hl) (hp.2.1 .ready)
      · have hb : k.status t = .blocked := by
          rw [hth]
          cases l with
          | ready => exact absurd rfl hready
          | sema s => exact (hset.sema s hl).1
          | cond c => exact (hset.cond c hl).1
        refine ⟨.waiters l, ⟨htr, hready, hone hl, fun l' hne => honly hl hne, hb⟩, fun p hp => ?_⟩
        cases p with
        | running => exact absurd hp.1 htr
        | ready => exact absurd (hpos hp.2.1) (honly hl (Ne.symm hready))
        | waiters l' =>
            congr 1
            by_contra hne
            exact honly hl hne (hpos hp.2.2.1)
        | parked => exact absurd (hm _ ▸ hl) (hp.2.1 l)
    · have hoff : ∀ l, t ∉ members k.mem l := fun l hl => hon ⟨l, hm l ▸ hl⟩
      have hb : k.status t = .blocked := by
        refine Or.resolve_right ?_ hd
        rw [hth] at ht hi ⊢
        exact hset.off ht hi fun l hl => hon ⟨l, hl⟩
      refine ⟨.parked, ⟨htr, hoff, hb⟩, fun p hp => ?_⟩
      cases p with
      | running => exact absurd hp.1 htr
      | ready => exact absurd (hpos hp.2.1) (hoff _)
      | waiters l => exact absurd (hpos hp.2.2.1) (hoff _)
      | parked => rfl

/-- Statements and interrupts that are proper in every state. -/
def Kernel.Plain {M : Type} (k : Kernel M) : Action → Bool
  | .call _ => true
  | .run =>
      match k.next? with
      | some (.threadBlock _) => false
      | some (.threadUnblock _) => false
      | some (.signalMove _) => false
      | _ => true
  | .interrupt =>
      match k.next? with
      | some (.waitBlock _) => false
      | _ => true

theorem Kernel.Plain.proper {M : Type} [ThreadQueues M] {k : Kernel M} {act : Action} (h : k.Plain act = true) :
    k.Proper act := by
  cases act with
  | call op => trivial
  | run =>
      intro stmt hs
      unfold Plain at h
      rw [hs] at h
      cases stmt with
      | threadBlock thr => cases h
      | threadUnblock thr => cases h
      | signalMove c => cases h
      | _ => trivial
  | interrupt =>
      intro c hc
      unfold Plain at h
      rw [hc] at h
      cases h

theorem Kernel.Plain.no_threadBlock {M : Type} {k : Kernel M} (h : k.Plain .run = true) (thr : ℕ) :
    k.next? ≠ some (.threadBlock thr) := by
  intro hn
  unfold Plain at h
  rw [hn] at h
  cases h

end Dunkos
