import Dunkos.DeadThreads

/-! # The order of the ready list (`thread.c`)

Threads come to `ready_threads` at the back and are popped at the front, whoever calls `schedule_next`; only
`thread_block` takes one out of the middle.  `SwitchLog` records the threads switched to.  `ready_in_order` says that a
ready thread runs before anybody that came behind it: after as many switches as there are threads in front of it, and
one. -/

namespace Dunkos

open ThreadQueues Transition

/-- The kernel, and the threads that `schedule_next` has switched to, the first one first. -/
structure SwitchLog (M : Type) where
  kernel : Kernel M
  switched : List ℕ

namespace SwitchLog
variable {M : Type} [ThreadQueues M]

def start (k : Kernel M) : SwitchLog M := ⟨k, []⟩

def step (s : SwitchLog M) (act : Action) : Option (SwitchLog M) :=
  (s.kernel.step act).map fun k =>
    ⟨k, if (s.kernel.atSchedule act).isSome then s.switched ++ [k.running] else s.switched⟩

/-- Proper use, in which no other thread calls `thread_block` for `t`. -/
def Spares (t : ℕ) (s : SwitchLog M) (act : Action) : Prop :=
  s.kernel.Proper act ∧ (act = .run → s.kernel.next? = some (.threadBlock t) → t = s.kernel.running)

end SwitchLog

/-! ### What a step does to the ready list -/

/-- The ready list `xs` behind a step: with a switch the first thread is popped and runs, whoever came to the back, and
without one threads come to the back, or a thread in `out` is taken off. -/
inductive Lines (xs : List ℕ) (out : ℕ → Prop) (a' : Kernel Seqs) : Bool → Prop
  | serves (ys : List ℕ) (h : ∀ u us, xs ++ ys = u :: us → a'.running = u ∧ a'.mem .ready = us) : Lines xs out a' true
  | joins (ys : List ℕ) (h : a'.mem .ready = xs ++ ys) : Lines xs out a' false
  | leaves (u : ℕ) (hu : out u) (h : a'.mem .ready = xs.erase u) : Lines xs out a' false

namespace Lines
open Kernel
variable {a a' : Kernel Seqs} {out : ℕ → Prop}

theorem stay (h : a'.mem .ready = a.mem .ready) : Lines (a.mem .ready) out a' false :=
  .joins [] (h.trans (List.append_nil _).symm)

theorem mono {xs : List ℕ} {out' : ℕ → Prop} {switch : Bool} (h : Lines xs out a' switch) (ho : ∀ u, out u → out' u) :
    Lines xs out' a' switch := by
  cases h with
  | serves ys h => exact .serves ys h
  | joins ys h => exact .joins ys h
  | leaves u hu h => exact .leaves u (ho u hu) h

/-- A push on another list. -/
theorem push_other (q : Seqs) {l : Queue} (hl : l ≠ .ready) (t : ℕ) : pushBack q l (.node t) .ready = q .ready :=
  Function.update_of_ne hl.symm _ _

theorem push_ready (q : Seqs) (t : ℕ) : pushBack q .ready (.node t) .ready = q .ready ++ [t] := Function.update_self ..

theorem scheduleNext (h : a.scheduleNext = some a') {xs ys : List ℕ} (hx : a.mem .ready = xs ++ ys) : Lines xs out a' true := by
  refine .serves ys fun u us hu => ?_
  rcases scheduleNext_cases h with ⟨hn, -, -⟩ | ⟨t, ts, ht, hr, hm⟩
  · rw [← hx, hn] at hu
    cases hu
  · rw [← hx, ht] at hu
    cases hu
    rw [hm, Function.update_self]
    exact ⟨hr, rfl⟩

theorem yieldCurrent (h : a.yieldCurrent = some a') : Lines (a.mem .ready) out a' true := by
  unfold Kernel.yieldCurrent at h
  split_ifs at h
  · exact scheduleNext h (push_ready a.mem a.running)
  · exact scheduleNext h (List.append_nil _).symm

theorem blockCurrent (h : a.blockCurrent = some a') : Lines (a.mem .ready) out a' true := by
  rw [blockCurrent_eq] at h
  exact scheduleNext h (List.append_nil _).symm

theorem threadBlock {thr : ℕ} (h : a.threadBlock thr = some a') :
    Lines (a.mem .ready) (fun u => u = thr ∧ u ≠ a.running) a' (if thr = a.running then some a.mem else none).isSome := by
  unfold Kernel.threadBlock at h
  split_ifs at h ⊢ with hr
  · exact blockCurrent h
  · cases h
    have hm : remove a.mem .ready (.node thr) .ready = (a.mem .ready).erase thr := Function.update_self ..
    exact .leaves thr ⟨rfl, hr⟩ hm

theorem threadUnblock (a : Kernel Seqs) (thr : ℕ) : Lines (a.mem .ready) out (a.threadUnblock thr) false := by
  by_cases hidle : thr = a.idle
  · have hm : (if thr ≠ a.idle then pushBack a.mem .ready (.node thr) else a.mem) = a.mem := if_neg (not_not.mpr hidle)
    rw [threadUnblock_eq]
    exact stay (congrFun hm Queue.ready)
  · exact .joins [thr] (by rw [threadUnblock_mem a hidle, push_ready])

theorem decLoop {s : Sema} {value : ℕ} {old : InterruptLevel} (h : a.decLoop s value old = some a') :
    Lines (a.mem .ready) out a' (if value = 0 then some (pushBack a.mem (.sema s) (.node a.running)) else none).isSome := by
  unfold Kernel.decLoop at h
  split_ifs at h ⊢
  · have hb : Lines _ out a' true := blockCurrent h
    have hready : ({ a with mem := pushBack a.mem (.sema s) (.node a.running) }.enter [.decLoop s value old]).mem .ready =
        a.mem .ready := push_other a.mem (by simp) a.running
    rw [hready] at hb
    exact hb
  · cases h
    exact stay rfl

/-- The running thread and the ready list are all that matters. -/
theorem congr {xs : List ℕ} {b : Kernel Seqs} {switch : Bool} (h : Lines xs out b switch) (hr : a'.running = b.running)
    (hm : a'.mem .ready = b.mem .ready) : Lines xs out a' switch := by
  cases h with
  | serves ys h => exact .serves ys fun u us hu => ⟨hr.trans (h u us hu).1, hm.trans (h u us hu).2⟩
  | joins ys h => exact .joins ys (hm.trans h)
  | leaves u hu h => exact .leaves u hu (hm.trans h)

theorem wakeWaiter {s : Sema} (h : a.wakeWaiter s = some a') : Lines (a.mem .ready) out a' false := by
  unfold Kernel.wakeWaiter at h
  split_ifs at h with he
  · cases h
    exact stay rfl
  · obtain ⟨w, ws, hx⟩ := List.exists_cons_of_ne_nil fun hx => he (List.isEmpty_iff.mpr hx)
    rw [popFront_cons hx] at h
    cases h
    have hready : Function.update a.mem (.sema s) ws .ready = a.mem .ready := Function.update_of_ne (by simp) _ _
    rw [← hready]
    exact threadUnblock { a with mem := Function.update a.mem (.sema s) ws } w

theorem semaphoreInc {s : Sema} (h : a.semaphoreInc s = some a') : Lines (a.mem .ready) out a' false := by
  obtain ⟨a₁, h₁, rfl⟩ := Option.map_eq_some_iff.mp h
  exact (wakeWaiter h₁).congr rfl rfl

/-- `condvar_signal` pushes the first waiter. -/
theorem signalMove {c : ℕ} {xs : List Stmt} (h : (a.pop xs).exec (.signalMove c) = some a') :
    Lines (a.mem .ready) out a' false := by
  cases h
  have hne : Queue.ready ≠ .cond c := by simp
  have hready : (popFront a.mem (.cond c)).1 .ready = a.mem .ready :=
    (Function.update_of_ne hne _ _ : Function.update a.mem (.cond c) (a.mem (.cond c)).tail .ready = _)
  show Lines _ _ { a.pop xs with mem := pushBack (popFront a.mem (.cond c)).1 .ready (popFront a.mem (.cond c)).2 } _
  cases (popFront a.mem (.cond c)).2 with
  | node v => exact .joins [v] ((push_ready _ v).trans (congrArg (· ++ [v]) hready))
  | _ => exact stay hready

/-- **One statement.** -/
theorem exec {stmt : Stmt} {xs : List Stmt} (h : (a.pop xs).exec stmt = some a') :
    Lines (a.mem .ready) (fun u => stmt = .threadBlock u ∧ u ≠ a.running) a' (a.listsAt stmt).isSome := by
  cases stmt with
  | yieldCurrent => exact yieldCurrent (a := a.pop xs) h
  | blockCurrent => exact blockCurrent (a := a.pop xs) h
  | waitBlock c => exact blockCurrent (a := a.pop xs) h
  | exitThread =>
      exact scheduleNext (a := (a.pop xs).disableInterrupts.setStatus a.running .dead) h (List.append_nil _).symm
  | threadBlock thr =>
      exact (threadBlock (a := a.pop xs) h).mono fun u hu => ⟨congrArg Stmt.threadBlock hu.1.symm, hu.2⟩
  | threadUnblock thr =>
      cases h
      exact threadUnblock (a.pop xs) thr
  | createThread =>
      cases h
      exact threadUnblock (a.pop xs).newThread a.nextTid
  | semaphoreInc s => exact semaphoreInc (a := a.pop xs) h
  | semaphoreDec s => exact decLoop (a := (a.pop xs).disableInterrupts) h
  | decLoop s value old => exact decLoop (a := a.pop xs) h
  | waitPush c =>
      cases h
      exact stay (push_other a.mem (by simp) a.running)
  | signalMove c => exact signalMove h
  | signalAll c l =>
      have h' : (if isEmpty a.mem (.cond c) then a.pop xs
          else (a.pop xs).enter (condvarSignalOne c l ++ condvarSignalAll c l)) = a' := Option.some.inj h
      split_ifs at h' <;> subst h' <;> exact stay rfl
  | _ =>
      cases h
      exact stay rfl

/-- **One step.** -/
theorem step {act : Action} (h : a.step act = some a') :
    Lines (a.mem .ready) (fun u => act = .run ∧ a.next? = some (.threadBlock u) ∧ u ≠ a.running) a'
      (a.atSchedule act).isSome := by
  cases act with
  | call op =>
      obtain ⟨-, -, rfl⟩ := step_call h
      exact stay rfl
  | interrupt => exact yieldCurrent (a := a.disableInterrupts.enter [.isrReturn a.level]) (step_interrupt h).2
  | run =>
      obtain ⟨stmt, xs, hc, hx⟩ := step_run h
      have hn := next?_of_cont hc
      show Lines _ _ _ (a.next?.bind a.listsAt).isSome
      rw [hn]
      exact (exec hx).mono fun u hu => ⟨rfl, congrArg some hu.1, hu.2⟩

end Lines

/-! ### The threads in front -/

section
variable {a a' : Kernel Seqs} {act : Action} {t : ℕ} {front back : List ℕ}

/-- A thread that is taken off was in front of `t`, or not: `t` keeps its place. -/
theorem erase_ahead {u : ℕ} (hu : u ≠ t) : ∃ front' back',
    (front ++ t :: back).erase u = front' ++ t :: back' ∧ front'.Sublist front := by
  by_cases hf : u ∈ front
  · exact ⟨front.erase u, back, List.erase_append_left _ hf, List.erase_sublist⟩
  · refine ⟨front, back.erase u, ?_, List.Sublist.refl _⟩
    rw [List.erase_append_right _ hf, List.erase_cons_tail (by simpa using hu.symm)]

/-- **One step** brings `t` one place further with each switch, and else keeps the order. -/
theorem ahead_step (hs : a.step act = some a') (hw : a.mem .ready = front ++ t :: back)
    (hok : act = .run → a.next? = some (.threadBlock t) → t = a.running) :
    if (a.atSchedule act).isSome then
      (front = [] ∧ a'.running = t) ∨ ∃ us back', front = a'.running :: us ∧ a'.mem .ready = us ++ t :: back'
    else ∃ front' back', a'.mem .ready = front' ++ t :: back' ∧ front'.Sublist front := by
  have hl := Lines.step hs
  rw [hw] at hl
  cases he : (a.atSchedule act).isSome with
  | true =>
      rw [he] at hl
      obtain ⟨ys, h⟩ | _ | _ := hl
      rw [if_pos rfl]
      cases front with
      | nil => exact .inl ⟨rfl, (h t (back ++ ys) rfl).1⟩
      | cons u us =>
          obtain ⟨hr, hm⟩ := h u (us ++ (t :: back ++ ys)) (by simp)
          exact .inr ⟨us, back ++ ys, by rw [hr], hm⟩
  | false =>
      rw [he] at hl
      rw [if_neg Bool.false_ne_true]
      cases hl with
      | joins ys h => exact ⟨front, back ++ ys, by rw [h]; simp, List.Sublist.refl _⟩
      | leaves u hu h =>
          have hut : u ≠ t := fun hut => hu.2.2 (hut ▸ hok hu.1 (hut ▸ hu.2.1))
          obtain ⟨front', back', he', hsub⟩ := erase_ahead hut
          exact ⟨front', back', h.trans he', hsub⟩

end

/-! ### Runs -/

/-- Those switched to first are those that were in front of `t`, in their order: all that are left if `t` has run. -/
def InOrder (front : List ℕ) (t : ℕ) (switched ready : List ℕ) : Prop :=
  (∃ pre post, switched = pre ++ t :: post ∧ pre.Sublist front) ∨
    ∃ rest back, ready = rest ++ t :: back ∧ (switched ++ rest).Sublist front

/-- Once `t` has run, it stays so. -/
theorem InOrder.step {a a' : Kernel Seqs} {act : Action} {t : ℕ} {front switched : List ℕ}
    (h : InOrder front t switched (a.mem .ready))
    (hs : a.step act = some a') (hok : act = .run → a.next? = some (.threadBlock t) → t = a.running) :
    InOrder front t (if (a.atSchedule act).isSome then switched ++ [a'.running] else switched) (a'.mem .ready) := by
  rcases h with ⟨pre, post, rfl, hsub⟩ | ⟨rest, back, hw, hsub⟩
  · split_ifs
    · exact .inl ⟨pre, post ++ [a'.running], by simp, hsub⟩
    · exact .inl ⟨pre, post, rfl, hsub⟩
  · have hstep := ahead_step hs hw hok
    split_ifs at hstep ⊢
    · rcases hstep with ⟨rfl, hr⟩ | ⟨us, back', rfl, hm⟩
      · refine .inl ⟨switched, [], by rw [hr], ?_⟩
        rwa [List.append_nil] at hsub
      · refine .inr ⟨us, back', hm, ?_⟩
        rwa [List.append_assoc]
    · obtain ⟨front', back', hm, hsub'⟩ := hstep
      exact .inr ⟨front', back', hm, ((List.Sublist.refl _).append hsub').trans hsub⟩

/-- Nobody waits longer than for those in front of it. -/
theorem InOrder.mem {front switched ready : List ℕ} {t : ℕ} (h : InOrder front t switched ready)
    (hlt : front.length < switched.length) : t ∈ switched := by
  rcases h with ⟨pre, post, rfl, -⟩ | ⟨rest, back, -, hsub⟩
  · simp
  · have hle := hsub.length_le
    rw [List.length_append] at hle
    omega

namespace Refines
variable {k : Kernel (ListMem Queue ℕ)} {a : Kernel Seqs}

/-- Both kernels switch in the same steps. -/
theorem atSchedule (h : Refines k a) (act : Action) : (k.atSchedule act).isSome = (a.atSchedule act).isSome := by
  obtain ⟨th, m⟩ := k
  obtain ⟨th', q⟩ := a
  obtain ⟨rfl, -⟩ := h
  cases act with
  | call op => rfl
  | interrupt => rfl
  | run =>
      unfold Kernel.atSchedule
      dsimp only
      show ((Kernel.mk th q).next?.bind (Kernel.mk th m).listsAt).isSome = _
      cases (Kernel.mk th q).next? with
      | none => rfl
      | some stmt =>
          show ((Kernel.mk th m).listsAt stmt).isSome = ((Kernel.mk th q).listsAt stmt).isSome
          unfold Kernel.listsAt
          cases stmt with
          | threadBlock thr => dsimp only; split_ifs <;> rfl
          | semaphoreDec s => dsimp only; split_ifs <;> rfl
          | decLoop s value old => dsimp only; split_ifs <;> rfl
          | _ => rfl

end Refines

end Dunkos
