import Dunkos.WaitExit

/-! # What parents do with the memory of their children

A process that exits waits for its `reap_sema`, "to ensure resources aren't deallocated prior to the
parent needing them", and ends with `exit_thread`.  `Reaping` runs `wait` and `exit_process` of
`WaitExit.lean` and keeps a record of who has incremented the `reap_sema` of whom, of the uses of a
child's `struct process` behind that (`late`) and of the processes that ended before it (`early`).

Both loops over the children go on from the link of the child whose `reap_sema` they have just
incremented.  `reaping_safe_iff` says that nothing else is wrong with them. -/

namespace Dunkos

open Elem ThreadQueues Kernel

/-- Behind the increment of a `reap_sema`, before `e = list_next(e)`. -/
def ProcessPc.behindInc : ProcessPc → Bool
  | waitInc _ _ _ => true
  | exitInc _ => true
  | _ => false

/-- `late` are pairs of a parent and the child it used, `early` the processes that ended. -/
structure Reaping (M : Type) extends Processes M where
  forkedBy : ℕ → Option ℕ
  reaped : ℕ → ℕ → Bool
  late : List (ℕ × ℕ)
  early : List ℕ

namespace Reaping
variable {M : Type}

section
variable (s : Reaping M)

/-- The step calls `fork_process`. -/
def Forking (act : ProcessAction) : Prop :=
  act = .fork ∨ (act = .advance ∧ s.pc s.kernel.running = .forking)

instance (act : ProcessAction) : Decidable (s.Forking act) := inferInstanceAs (Decidable (_ ∨ _))

/-- The processes whose `struct process` the running one reads or writes.  `fork_process` links the new child behind
the last one, `list_remove` writes the links of the neighbours, and a semaphore statement uses the owner of the
semaphore. -/
def touched : ProcessAction → List ℕ
  | .kernel .run => ((s.kernel.cont s.kernel.running).head?.bind Stmt.sema?).elim [] fun
      | .sem i => [i / 2]
      | .binary _ => []
  | .fork => s.kernel.nextTid :: (listBack s.children s.kernel.running).node?.toList
  | .advance => match s.pc s.kernel.running with
      | .forking => s.kernel.nextTid :: (listBack s.children s.kernel.running).node?.toList
      | .waitLoop _ _ e => e.node?.toList
      | .waitDec _ chld => [chld]
      | .waitRemove _ _ chld =>
          chld :: ((s.children.prev (node chld)).node?.toList ++ (s.children.next (node chld)).node?.toList)
      | .waitInc _ _ chld => [chld]
      | .exitLoop el => el.node?.toList
      | .exitInc chld => [chld]
      | _ => []
  | _ => []

/-- The running process runs a statement of `semaphore_inc` on the `reap_sema` of `c`. -/
def Increments (act : ProcessAction) (c : ℕ) : Prop :=
  act = .kernel .run ∧ (s.kernel.cont s.kernel.running).head? = some (.semaphoreInc (.sem (reapSema c)))

instance (act : ProcessAction) (c : ℕ) : Decidable (s.Increments act c) := inferInstanceAs (Decidable (_ ∧ _))

/-- The running thread is a process and runs `exit_thread`. -/
def Exits (act : ProcessAction) : Prop :=
  act = .kernel .run ∧ s.isProcess s.kernel.running = true ∧
    (s.kernel.cont s.kernel.running).head? = some .exitThread

instance (act : ProcessAction) : Decidable (s.Exits act) := inferInstanceAs (Decidable (_ ∧ _ ∧ _))

/-- The one that forked `c` has incremented its `reap_sema`. -/
def ReapedByParent (c : ℕ) : Bool := (s.forkedBy c).any fun q => s.reaped q c

/-- The record after a step that leads to `p`. -/
def after (act : ProcessAction) (p : Processes M) : Reaping M where
  toProcesses := p
  forkedBy := if s.Forking act then Function.update s.forkedBy s.kernel.nextTid (some s.kernel.running) else s.forkedBy
  reaped := fun q c => s.reaped q c || decide (q = s.kernel.running ∧ s.Increments act c)
  late := ((s.touched act).filter fun c => s.reaped s.kernel.running c).map (fun c => (s.kernel.running, c)) ++ s.late
  early := if s.Exits act ∧ s.ReapedByParent s.kernel.running = false then s.kernel.running :: s.early else s.early

end

def step [ThreadQueues M] (s : Reaping M) (act : ProcessAction) : Option (Reaping M) :=
  (s.toProcesses.step act).map (s.after act)

/-- The semaphores of processes are used by their own functions only, and processes end by `exit_process`. -/
def Unrelated (s : Reaping M) (act : ProcessAction) : Prop :=
  s.toProcesses.Unrelated act ∧ ¬ (act = .kernel (.call .exitThread) ∧ s.isProcess s.kernel.running = true)

instance (s : Reaping M) (act : ProcessAction) : Decidable (s.Unrelated act) := inferInstanceAs (Decidable (_ ∧ _))

/-- The step goes on in a traversal from a child whose `reap_sema` was incremented in it. -/
def GoesOn (s : Reaping M) (act : ProcessAction) : Prop :=
  act = .advance ∧ (s.pc s.kernel.running).behindInc = true

instance (s : Reaping M) (act : ProcessAction) : Decidable (s.GoesOn act) := inferInstanceAs (Decidable (_ ∧ _))

/-- No child was used behind the increment of its `reap_sema`, and none ended before it. -/
def Safe (s : Reaping M) : Prop := s.late = [] ∧ s.early = []

def start [ThreadQueues M] (mem : M) (level : InterruptLevel) (intr : Bool) : Reaping M where
  toProcesses := .start mem level intr
  forkedBy := fun _ => none
  reaped := fun _ _ => false
  late := []
  early := []

/-! ### Where parents and children are -/

variable {s s' : Reaping M} {σ σ' : ℕ → List ℕ}

/-- The semaphore of a process that one at a given place can have statements on. -/
def semaOf (t : ℕ) : ProcessPc → Option ℕ
  | .waitDec _ c => some (waitSema c)
  | .waitInc _ _ c => some (reapSema c)
  | .exitInc c => some (reapSema c)
  | .exitSelf => some (waitSema t)
  | .exitReap => some (reapSema t)
  | _ => none

/-- `t` has incremented the `reap_sema` of `c`, or will as the next thing it does with semaphores. -/
def Incrementing (s : Reaping M) (t c : ℕ) : Prop :=
  (s.reaped t c = true ∧ pending (.sem (reapSema c)) (s.kernel.cont t) = []) ∨
    (s.reaped t c = false ∧ pending (.sem (reapSema c)) (s.kernel.cont t) = [.semaphoreInc (.sem (reapSema c))])

/-- What holds of a process at a given place, when the lists of children hold `σ`.  In `exit_process`, `ys` are the
children the traversal still comes to. -/
def Place (s : Reaping M) (σ : ℕ → List ℕ) (t : ℕ) : ProcessPc → Prop
  | .waitInc _ _ c => s.forkedBy c = some t ∧ s.Incrementing t c ∧ ∀ c' ∈ σ t, s.reaped t c' = false
  | .exitLoop el => ∃ ys, ys <:+ σ t ∧ el = cellAt t ys ∧ ∀ c ∈ ys, s.reaped t c = false
  | .exitInc c => ∃ ys, c :: ys <:+ σ t ∧ s.Incrementing t c ∧ ∀ c' ∈ ys, s.reaped t c' = false
  | .exitSelf => True
  | .exitReap => .semaphoreInc (.sem (reapSema t)) ∉ pending (.sem (reapSema t)) (s.kernel.cont t) ∧
      (pending (.sem (reapSema t)) (s.kernel.cont t) = [] → s.ReapedByParent t = true)
  | .exited => s.ReapedByParent t = true
  | _ => ∀ c ∈ σ t, s.reaped t c = false

/-- What holds of one process. -/
structure At (s : Reaping M) (σ : ℕ → List ℕ) (t : ℕ) : Prop where
  sema : ∀ i, pending (.sem i) (s.kernel.cont t) ≠ [] → semaOf t (s.pc t) = some i
  exits : s.isProcess t = true → .exitThread ∈ s.kernel.cont t → s.pc t = .exited
  place : s.Place σ t (s.pc t)

/-- What holds of all of them together. -/
structure Common (s : Reaping M) (σ : ℕ → List ℕ) : Prop where
  base : s.toProcesses.Inv σ
  forked : ∀ q, ∀ c ∈ σ q, s.forkedBy c = some q
  parent : ∀ c q, s.forkedBy c = some q → q < c ∧ c < s.kernel.nextTid
  reaped : ∀ q c, s.reaped q c = true → s.forkedBy c = some q
  posted : ∀ c, s.kernel.value (.sem (reapSema c)) ≠ 0 → s.ReapedByParent c = true

/-- The invariant. -/
def Inv (s : Reaping M) (σ : ℕ → List ℕ) : Prop := s.Common σ ∧ ∀ t, s.At σ t

/-- A step of another process, as one sees it. -/
structure Keeps (s s' : Reaping M) (σ σ' : ℕ → List ℕ) (t : ℕ) : Prop where
  pc : s'.pc t = s.pc t
  own : σ' t = σ t
  forkedBy : ∀ c q, s.forkedBy c = some q → s'.forkedBy c = some q
  reaped : ∀ c, s'.reaped t c = s.reaped t c
  mono : ∀ q c, s.reaped q c = true → s'.reaped q c = true
  pending : ∀ i, pending (.sem i) (s'.kernel.cont t) = pending (.sem i) (s.kernel.cont t)
  exits : s'.isProcess t = true → .exitThread ∈ s'.kernel.cont t →
    s.isProcess t = true ∧ .exitThread ∈ s.kernel.cont t

theorem reapedByParent_iff {c : ℕ} : s.ReapedByParent c = true ↔ ∃ q, s.forkedBy c = some q ∧ s.reaped q c = true := by
  simp [ReapedByParent, Option.any_eq_true]

theorem reapedByParent_mono (hf : ∀ c q, s.forkedBy c = some q → s'.forkedBy c = some q)
    (hr : ∀ q c, s.reaped q c = true → s'.reaped q c = true) {c : ℕ} (h : s.ReapedByParent c = true) :
    s'.ReapedByParent c = true := by
  obtain ⟨q, hq, hc⟩ := reapedByParent_iff.mp h
  exact reapedByParent_iff.mpr ⟨q, hf c q hq, hr q c hc⟩

namespace Keeps
variable {t : ℕ}

theorem incrementing (h : Keeps s s' σ σ' t) {c : ℕ} (hi : s.Incrementing t c) : s'.Incrementing t c := by
  unfold Incrementing
  rw [h.reaped, h.pending]
  exact hi

theorem place (h : Keeps s s' σ σ' t) {pc : ProcessPc} (hp : s.Place σ t pc) : s'.Place σ' t pc := by
  cases pc with
  | waitInc p status c =>
      obtain ⟨hf, hi, hr⟩ := hp
      exact ⟨h.forkedBy c t hf, h.incrementing hi, by simpa only [h.own, h.reaped] using hr⟩
  | exitLoop el =>
      obtain ⟨ys, hys, he, hr⟩ := hp
      exact ⟨ys, h.own ▸ hys, he, by simpa only [h.reaped] using hr⟩
  | exitInc c =>
      obtain ⟨ys, hys, hi, hr⟩ := hp
      exact ⟨ys, h.own ▸ hys, h.incrementing hi, by simpa only [h.reaped] using hr⟩
  | exitSelf => trivial
  | exitReap =>
      obtain ⟨hno, hr⟩ := hp
      unfold Place
      rw [h.pending]
      exact ⟨hno, fun hnil => reapedByParent_mono h.forkedBy h.mono (hr hnil)⟩
  | exited => exact reapedByParent_mono h.forkedBy h.mono hp
  | _ => exact fun c hc => (h.reaped c).trans (hp c (h.own ▸ hc))

theorem at_ (h : Keeps s s' σ σ' t) (ha : s.At σ t) : s'.At σ' t where
  sema i hi := by
    rw [h.pc]
    exact ha.sema i (h.pending i ▸ hi)
  exits hp he := by
    obtain ⟨hp, he⟩ := h.exits hp he
    exact h.pc.trans (ha.exits hp he)
  place := by
    rw [h.pc]
    exact h.place ha.place

end Keeps

/-! ### Parts of a step -/

namespace Common

theorem lists (h : s.Common σ) : Represents s.children σ := h.base.1.lists

/-- A child is not its own parent. -/
theorem not_reaped_self (h : s.Common σ) (t : ℕ) : s.reaped t t = false := by
  rw [← Bool.not_eq_true]
  intro hr
  exact Nat.lt_irrefl t (h.parent t t (h.reaped t t hr)).1

/-- A process that does not exist yet has not been reaped. -/
theorem not_reaped_fresh (h : s.Common σ) {c : ℕ} (hc : s.kernel.nextTid ≤ c) (q : ℕ) : s.reaped q c = false := by
  rw [← Bool.not_eq_true]
  intro hr
  have hlt := (h.parent c q (h.reaped q c hr)).2
  omega

end Common

namespace At
variable {t : ℕ} {pc : ProcessPc}

/-- A process outside of the kernel. -/
theorem of_outside (hc : s.kernel.cont t = []) (hpc : s.pc t = pc) (hp : s.Place σ t pc) : s.At σ t := by
  subst hpc
  refine ⟨fun i hi => ?_, fun _ he => ?_, hp⟩
  · rw [hc] at hi
    exact absurd rfl hi
  · rw [hc] at he
    cases he

/-- A process that has just called a function of the kernel. -/
theorem of_call {op : ThreadOp} (hc : s.kernel.cont t = op.body) (hpc : s.pc t = pc)
    (hs : ∀ i, op = .semaphoreInc i ∨ op = .semaphoreDec i → semaOf t pc = some i)
    (he : op = .exitThread → s.isProcess t = true → pc = .exited) (hp : s.Place σ t pc) : s.At σ t := by
  subst hpc
  refine ⟨fun i hi => ?_, fun hproc hin => he ?_ hproc, hp⟩
  · rw [hc] at hi
    apply hs
    by_contra hno
    rw [not_or] at hno
    exact hi (pending_body hno.1 hno.2)
  · rw [hc] at hin
    cases op with
    | exitThread => rfl
    | condvarWait c l => simp [ThreadOp.body, condvarWait, lockAcquire, lockRelease] at hin
    | condvarSignalOne c l => simp [ThreadOp.body, condvarSignalOne, lockAcquire, lockRelease] at hin
    | condvarSignalAll c l => simp [ThreadOp.body, condvarSignalAll] at hin
    | lockAcquire l => simp [ThreadOp.body, lockAcquire] at hin
    | lockRelease l => simp [ThreadOp.body, lockRelease] at hin
    | _ => simp [ThreadOp.body] at hin

end At

namespace Inv

theorem update (h : s.Inv σ) (hc : s'.Common σ') (hk : ∀ t, t ≠ s.kernel.running → Keeps s s' σ σ' t)
    (ho : s'.At σ' s.kernel.running) : s'.Inv σ' := by
  refine ⟨hc, fun t => ?_⟩
  rcases eq_or_ne t s.kernel.running with rfl | ht
  · exact ho
  · exact (hk t ht).at_ (h.2 t)

theorem place_eq (h : s.Inv σ) {pc : ProcessPc} (hpc : s.pc s.kernel.running = pc) :
    s.Place σ s.kernel.running pc := hpc ▸ (h.2 _).place

end Inv

/-! ### Steps of processes -/

/-- Only a statement of the kernel increments. -/
theorem after_reaped {act : ProcessAction} (hact : act ≠ .kernel .run) (p : Processes M) :
    (s.after act p).reaped = s.reaped := by
  funext q c
  simp [after, Increments, hact]

theorem advance_reaped (p : Processes M) : (s.after .advance p).reaped = s.reaped := by
  apply after_reaped
  nofun

theorem after_forkedBy {act : ProcessAction} (hact : ¬ s.Forking act) (p : Processes M) :
    (s.after act p).forkedBy = s.forkedBy := if_neg hact

/-- What a step of the running process does that forks nothing: it goes on, and calls a function of the kernel or none. -/
structure Moves (s : Reaping M) (p : Processes M) (pc : ProcessPc) (xs : List Stmt) : Prop where
  kernel : p.kernel = s.kernel.enter xs
  pc : p.pc = Function.update s.pc s.kernel.running pc
  isProcess : p.isProcess = s.isProcess

/-- The parts of the invariant that are not about the running process. -/
theorem Inv.moves (h : s.Inv σ) {act : ProcessAction} {p : Processes M} {pc : ProcessPc} {xs : List Stmt}
    (hm : s.Moves p pc xs) (hact : act ≠ .kernel .run) (hf : ¬ s.Forking act) (hb : p.Inv σ')
    (hsub : ∀ q, ∀ c ∈ σ' q, c ∈ σ q) (hown : ∀ t, t ≠ s.kernel.running → σ' t = σ t)
    (ho : (s.after act p).At σ' s.kernel.running) : (s.after act p).Inv σ' := by
  have hr := after_reaped (s := s) hact p
  have hfork := after_forkedBy hf p
  refine h.update ⟨hb, fun q c hc => ?_, fun c q hq => ?_, fun q c hc => ?_, fun c hv => ?_⟩ (fun t ht => ?_) ho
  · rw [hfork]
    exact h.1.forked q c (hsub q c hc)
  · rw [hfork] at hq
    show q < c ∧ c < p.kernel.nextTid
    rw [hm.kernel]
    exact h.1.parent c q hq
  · rw [hr] at hc
    rw [hfork]
    exact h.1.reaped q c hc
  · have hv' : p.kernel.value (.sem (reapSema c)) ≠ 0 := hv
    rw [hm.kernel] at hv'
    unfold ReapedByParent
    rw [hr, hfork]
    exact h.1.posted c hv'
  · refine ⟨?_, hown t ht, fun c q hq => ?_, fun c => ?_, fun q c hc => ?_, fun i => ?_, fun hp he => ?_⟩
    · show p.pc t = s.pc t
      rw [hm.pc, Function.update_of_ne ht]
    · rw [hfork]
      exact hq
    · rw [hr]
    · rw [hr]
      exact hc
    · show Kernel.pending _ (p.kernel.cont t) = _
      rw [hm.kernel, enter_others _ _ ht]
    · have hp' : p.isProcess t = true := hp
      have he' : .exitThread ∈ p.kernel.cont t := he
      rw [hm.isProcess] at hp'
      rw [hm.kernel, enter_others _ _ ht] at he'
      exact ⟨hp', he'⟩

theorem Moves.of_eq {p : Processes M} {pc : ProcessPc} (hk : p.kernel = s.kernel)
    (hpc : p.pc = Function.update s.pc s.kernel.running pc) (hp : p.isProcess = s.isProcess) : s.Moves p pc [] :=
  ⟨hk.trans (enter_nil _).symm, hpc, hp⟩

theorem Moves.cont_self {p : Processes M} {pc : ProcessPc} {xs : List Stmt} (hm : s.Moves p pc xs) (hout : s.Outside) :
    p.kernel.cont s.kernel.running = xs := by
  rw [hm.kernel, enter_self, hout.2.1, List.append_nil]

namespace Inv

/-- The running process goes on outside of the kernel. -/
theorem goes (h : s.Inv σ) (hout : s.Outside) {act : ProcessAction} {p : Processes M} (pc : ProcessPc)
    (hm : s.Moves p pc []) (hact : act ≠ .kernel .run) (hf : ¬ s.Forking act) (hb : ∃ σ', p.Inv σ')
    (hc : p.children = s.children) (hp : (s.after act p).Place σ s.kernel.running pc) : (s.after act p).Inv σ := by
  obtain ⟨σ', hb⟩ := hb
  obtain rfl : σ' = σ := h.1.lists.unique (hc ▸ hb.1.lists)
  refine h.moves hm hact hf hb (fun _ _ hc => hc) (fun _ _ => rfl) (.of_outside (hm.cont_self hout) ?_ hp)
  exact (congrFun hm.pc _).trans (Function.update_self ..)

/-- The running process calls a function of the kernel. -/
theorem calls (h : s.Inv σ) (hout : s.Outside) {p : Processes M} (pc : ProcessPc) (op : ThreadOp)
    (hm : s.Moves p pc op.body) (hf : ¬ s.Forking .advance) (hb : ∃ σ', p.Inv σ') (hc : p.children = s.children)
    (hs : ∀ i, op = .semaphoreInc i ∨ op = .semaphoreDec i → semaOf s.kernel.running pc = some i)
    (he : op = .exitThread → pc = .exited) (hp : (s.after .advance p).Place σ s.kernel.running pc) :
    (s.after .advance p).Inv σ := by
  obtain ⟨σ', hb⟩ := hb
  obtain rfl : σ' = σ := h.1.lists.unique (hc ▸ hb.1.lists)
  refine h.moves hm (by simp) hf hb (fun _ _ hc => hc) (fun _ _ => rfl) (.of_call (hm.cont_self hout) ?_ hs ?_ hp)
  · exact (congrFun hm.pc _).trans (Function.update_self ..)
  · exact fun ho _ => he ho

/-- One step of the loop of `wait`. -/
theorem waitLoop (h : s.Inv σ) (hout : s.Outside) {p : Processes M} {pid : ℕ} {status : BitVec 32} {e : Elem ℕ ℕ}
    (hpc : s.pc s.kernel.running = .waitLoop pid status e) (hs : s.advance (.waitLoop pid status e) = some p)
    (hb : ∃ σ', p.Inv σ') : (s.after .advance p).Inv σ := by
  have hr : ∀ c ∈ σ s.kernel.running, s.reaped s.kernel.running c = false := h.place_eq hpc
  have hr' : ∀ c ∈ σ s.kernel.running, (s.after .advance p).reaped s.kernel.running c = false := by
    rwa [advance_reaped]
  have hf : ¬ s.Forking .advance := by simp [Forking, hpc]
  obtain ⟨ys, -, rfl, -⟩ := h.1.base.place_eq hpc
  cases ys with
  | nil =>
      rw [Processes.advance_waitLoop_nil] at hs
      cases hs
      exact h.goes hout .user (.of_eq rfl rfl rfl) (by simp) hf hb rfl hr'
  | cons c ys =>
      rw [Processes.advance_waitLoop_cons] at hs
      split_ifs at hs <;> cases hs
      · exact h.calls hout (.waitDec pid c) (.semaphoreDec (waitSema c)) ⟨rfl, rfl, rfl⟩ hf hb rfl
          (by simp [semaOf]) (by simp) hr'
      · exact h.goes hout (.waitLoop pid status _) (.of_eq rfl rfl rfl) (by simp) hf hb rfl hr'

theorem waitRemove (h : s.Inv σ) (hout : s.Outside) {p : Processes M} {pid chld : ℕ} {status : BitVec 32}
    (hpc : s.pc s.kernel.running = .waitRemove pid status chld) (hs : s.advance (.waitRemove pid status chld) = some p)
    (hb : ∃ σ', p.Inv σ') : ∃ σ', (s.after .advance p).Inv σ' := by
  have hr : ∀ c ∈ σ s.kernel.running, s.reaped s.kernel.running c = false := h.place_eq hpc
  have hf : ¬ s.Forking .advance := by simp [Forking, hpc]
  obtain ⟨rfl, -, hin, -⟩ := h.1.base.place_eq hpc
  cases hs
  obtain ⟨σ', hb⟩ := hb
  obtain rfl := (h.1.lists.remove hin).unique hb.1.lists
  have hsub : ∀ q, ∀ c ∈ Function.update σ s.kernel.running ((σ s.kernel.running).erase chld) q, c ∈ σ q := by
    intro q c hc
    rw [Function.update_apply] at hc
    split_ifs at hc with hq
    · exact hq ▸ List.mem_of_mem_erase hc
    · exact hc
  have hm : s.Moves { (s.move (.waitInc chld status chld)).call (.semaphoreInc (reapSema chld)) with
      children := listRemove s.children s.kernel.running (node chld) } (.waitInc chld status chld)
      (ThreadOp.semaphoreInc (reapSema chld)).body := ⟨rfl, rfl, rfl⟩
  refine ⟨_, h.moves hm (by simp) hf hb hsub (fun t ht => Function.update_of_ne ht _ _)
    (.of_call (hm.cont_self hout) (Function.update_self ..) (by simp [semaOf]) (by simp) ⟨?_, .inr ⟨?_, ?_⟩, fun c hc => ?_⟩)⟩
  · rw [after_forkedBy hf]
    exact h.1.forked _ _ hin
  · rw [advance_reaped]
    exact hr _ hin
  · exact (congrArg (pending _) (hm.cont_self hout)).trans (pending_cons_of_eq rfl _)
  · rw [advance_reaped]
    exact hr c (hsub _ c hc)

theorem exitLoop (h : s.Inv σ) (hout : s.Outside) {p : Processes M} {el : Elem ℕ ℕ}
    (hpc : s.pc s.kernel.running = .exitLoop el) (hs : s.advance (.exitLoop el) = some p) (hb : ∃ σ', p.Inv σ') :
    (s.after .advance p).Inv σ := by
  have hf : ¬ s.Forking .advance := by simp [Forking, hpc]
  obtain ⟨ys, ⟨xs, hx⟩, rfl, hr⟩ := h.place_eq hpc
  cases ys with
  | nil =>
      have hadv : s.advance (.exitLoop (cellAt s.kernel.running [])) =
          some ((s.call (.semaphoreInc (waitSema s.kernel.running))).move .exitSelf) := if_pos rfl
      rw [hadv] at hs
      cases hs
      exact h.calls hout .exitSelf (.semaphoreInc (waitSema s.kernel.running)) ⟨rfl, rfl, rfl⟩ hf hb rfl
        (by simp [semaOf]) (by simp) trivial
  | cons c ys =>
      have hproc : s.isProcess c = true := (h.1.base.1.child _ c (hx ▸ List.mem_append_right _ List.mem_cons_self)).2
      have hadv : s.advance (.exitLoop (cellAt s.kernel.running (c :: ys))) =
          some ((s.call (.semaphoreInc (reapSema c))).move (.exitInc c)) := by
        simp [Processes.advance, cellAt, listEnd, hproc]
      rw [hadv] at hs
      cases hs
      have hm : s.Moves ((s.call (.semaphoreInc (reapSema c))).move (.exitInc c)) (.exitInc c)
          (ThreadOp.semaphoreInc (reapSema c)).body := ⟨rfl, rfl, rfl⟩
      refine h.calls hout _ _ hm hf hb rfl (by simp [semaOf]) (by simp) ⟨ys, ⟨xs, hx⟩, .inr ⟨?_, ?_⟩, fun c' hc' => ?_⟩
      · rw [advance_reaped]
        exact hr c List.mem_cons_self
      · exact (congrArg (pending _) (hm.cont_self hout)).trans (pending_cons_of_eq rfl _)
      · rw [advance_reaped]
        exact hr c' (List.mem_cons_of_mem _ hc')

/-- **One step of a process** that forks nothing. -/
theorem advance (h : s.Inv σ) (hout : s.Outside) {p : Processes M} (hf : s.pc s.kernel.running ≠ .forking)
    (hs : s.advance (s.pc s.kernel.running) = some p) : ∃ σ', (s.after .advance p).Inv σ' := by
  have hf' : ¬ s.Forking .advance := by simp [Forking, hf]
  have hb := h.1.base.advance hout hs
  cases hpc : s.pc s.kernel.running with
  | user =>
      rw [hpc] at hs
      cases hs
  | exited =>
      rw [hpc] at hs
      cases hs
  | forking => exact absurd hpc hf
  | waitLoop pid status e => exact ⟨σ, h.waitLoop hout hpc (hpc ▸ hs) hb⟩
  | waitDec pid chld =>
      have hr : ∀ c ∈ σ s.kernel.running, s.reaped s.kernel.running c = false := h.place_eq hpc
      rw [hpc] at hs
      cases hs
      refine ⟨σ, h.goes hout (.waitRemove pid _ chld) (.of_eq rfl rfl rfl) (by simp) hf' hb rfl fun c hc => ?_⟩
      rw [advance_reaped]
      exact hr c hc
  | waitRemove pid status chld => exact h.waitRemove hout hpc (hpc ▸ hs) hb
  | waitInc pid status chld =>
      obtain ⟨-, -, hr⟩ := h.place_eq hpc
      rw [hpc] at hs
      cases hs
      refine ⟨σ, h.goes hout (.waitLoop pid status _) (.of_eq rfl rfl rfl) (by simp) hf' hb rfl fun c hc => ?_⟩
      rw [advance_reaped]
      exact hr c hc
  | exitLoop el => exact ⟨σ, h.exitLoop hout hpc (hpc ▸ hs) hb⟩
  | exitInc chld =>
      obtain ⟨ys, ⟨xs, hx⟩, -, hr⟩ := h.place_eq hpc
      rw [hpc] at hs
      cases hs
      refine ⟨σ, h.goes hout (.exitLoop _) (.of_eq rfl rfl rfl) (by simp) hf' hb rfl
        ⟨ys, ⟨xs ++ [chld], ?_⟩, h.1.lists.listNext_eq hx.symm, fun c hc => ?_⟩⟩
      · rw [← hx, List.append_assoc, List.singleton_append]
      · rw [advance_reaped]
        exact hr c hc
  | exitSelf =>
      rw [hpc] at hs
      cases hs
      have hm : s.Moves ((s.call (.semaphoreDec (reapSema s.kernel.running))).move .exitReap) .exitReap
          (ThreadOp.semaphoreDec (reapSema s.kernel.running)).body := ⟨rfl, rfl, rfl⟩
      have hpend : pending (.sem (reapSema s.kernel.running)) ((s.call (.semaphoreDec (reapSema
          s.kernel.running))).kernel.cont s.kernel.running) = [.semaphoreDec (.sem (reapSema s.kernel.running))] :=
        (congrArg (pending _) (hm.cont_self hout)).trans (pending_cons_of_eq rfl _)
      refine ⟨σ, h.calls hout _ _ hm hf' hb rfl (by simp [semaOf]) (by simp) ⟨fun hin => ?_, fun hnil => ?_⟩⟩
      · cases List.mem_singleton.mp (hpend ▸ hin)
      · exact absurd (hpend.symm.trans hnil) (List.cons_ne_nil _ _)
  | exitReap =>
      obtain ⟨-, hr⟩ := h.place_eq hpc
      rw [hpc] at hs
      cases hs
      refine ⟨σ, h.calls hout .exited .exitThread ⟨rfl, rfl, rfl⟩ hf' hb rfl (by simp) (fun _ => rfl) ?_⟩
      show ReapedByParent _ _ = true
      unfold ReapedByParent
      rw [advance_reaped, after_forkedBy hf']
      exact hr (by rw [hout.2.1]; rfl)

end Inv

/-- What a step does that calls `fork_process`. -/
structure Forks (s : Reaping M) (p : Processes M) (pc : ProcessPc) (xs : List Stmt) : Prop where
  kernel : p.kernel = s.kernel.newProcess.enter xs
  pc : p.pc = Function.update s.pc s.kernel.running pc
  isProcess : p.isProcess = s.forkProcess.1.isProcess
  children : p.children = s.forkProcess.1.children

namespace Forks
variable {act : ProcessAction} {p : Processes M} {pc : ProcessPc} {xs : List Stmt}

theorem nextTid (hm : s.Forks p pc xs) : p.kernel.nextTid = s.kernel.nextTid + 1 := by
  rw [hm.kernel]
  rfl

theorem cont_other (hm : s.Forks p pc xs) {t : ℕ} (ht : t ≠ s.kernel.running) :
    p.kernel.cont t = Function.update s.kernel.cont s.kernel.nextTid [] t := by
  rw [hm.kernel]
  exact enter_others _ _ ht

theorem cont_self (hm : s.Forks p pc xs) (hout : s.Outside) (hne : s.kernel.running ≠ s.kernel.nextTid) :
    p.kernel.cont s.kernel.running = xs := by
  have hrun : s.kernel.newProcess.cont s.kernel.running = [] := (Function.update_of_ne hne _ _).trans hout.2.1
  rw [hm.kernel]
  refine (enter_self s.kernel.newProcess xs).trans ?_
  rw [show s.kernel.newProcess.cont s.kernel.newProcess.running = [] from hrun, List.append_nil]

theorem forkedBy_eq (hf : s.Forking act) :
    (s.after act p).forkedBy = Function.update s.forkedBy s.kernel.nextTid (some s.kernel.running) := if_pos hf

/-- The new process is no one's child yet. -/
theorem forkedBy_mono (h : s.Common σ) (hf : s.Forking act) :
    ∀ c q, s.forkedBy c = some q → (s.after act p).forkedBy c = some q := by
  intro c q hq
  rw [forkedBy_eq hf, Function.update_of_ne (Nat.ne_of_lt (h.parent c q hq).2)]
  exact hq

/-- The new process is a child of the running one, behind its other children. -/
theorem common (h : s.Common σ) (hm : s.Forks p pc xs) (hact : act ≠ .kernel .run) (hf : s.Forking act)
    (hb : p.Inv (Function.update σ s.kernel.running (σ s.kernel.running ++ [s.kernel.nextTid]))) :
    (s.after act p).Common (Function.update σ s.kernel.running (σ s.kernel.running ++ [s.kernel.nextTid])) := by
  have hreap := after_reaped (s := s) hact p
  have hmono := forkedBy_mono (p := p) h hf
  refine ⟨hb, fun q c hc => ?_, fun c q hq => ?_, fun q c hc => ?_, fun c hv => ?_⟩
  · rw [Function.update_apply] at hc
    split_ifs at hc with hq
    · rcases List.mem_append.mp hc with hc | hc
      · exact hmono c q (h.forked q c (hq ▸ hc))
      · rw [List.mem_singleton.mp hc, forkedBy_eq hf, Function.update_self, hq]
    · exact hmono c q (h.forked q c hc)
  · show q < c ∧ c < p.kernel.nextTid
    rw [forkedBy_eq hf, Function.update_apply] at hq
    rw [hm.nextTid]
    split_ifs at hq with hc
    · cases hq
      have hlt := h.base.1.sane.exists_running
      omega
    · have hlt := h.parent c q hq
      omega
  · rw [hreap] at hc
    exact hmono c q (h.reaped q c hc)
  · have hv' : p.kernel.value (.sem (reapSema c)) ≠ 0 := hv
    rw [hm.kernel] at hv'
    exact reapedByParent_mono hmono (fun q c hc => hreap ▸ hc) (h.posted c hv')

/-- The other processes do not notice. -/
theorem keeps (h : s.Common σ) (hm : s.Forks p pc xs) (hact : act ≠ .kernel .run) (hf : s.Forking act) {t : ℕ}
    (ht : t ≠ s.kernel.running) : s.Keeps (s.after act p) σ
      (Function.update σ s.kernel.running (σ s.kernel.running ++ [s.kernel.nextTid])) t := by
  have hreap := after_reaped (s := s) hact p
  have hcont := hm.cont_other ht
  refine ⟨?_, Function.update_of_ne ht _ _, forkedBy_mono h hf, fun c => by rw [hreap], fun q c hc => hreap ▸ hc,
    fun i => (congrArg (Kernel.pending _) hcont).trans (h.base.1.newProcess_pending t _), fun hproc hin => ?_⟩
  · show p.pc t = s.pc t
    rw [hm.pc, Function.update_of_ne ht]
  · have hproc' : Function.update s.isProcess s.kernel.nextTid true t = true := (congrFun hm.isProcess t).symm.trans hproc
    have hin' : .exitThread ∈ p.kernel.cont t := hin
    rw [hcont] at hin'
    rcases eq_or_ne t s.kernel.nextTid with rfl | hn
    · rw [Function.update_self] at hin'
      cases hin'
    · rw [Function.update_of_ne hn] at hproc' hin'
      exact ⟨hproc', hin'⟩

end Forks

theorem Inv.forks (h : s.Inv σ) (hout : s.Outside) {act : ProcessAction} {p : Processes M} (pc : ProcessPc)
    (xs : List Stmt) (hm : s.Forks p pc xs) (hact : act ≠ .kernel .run) (hf : s.Forking act) (hb : ∃ σ', p.Inv σ')
    (hxs : ∀ i, pending (.sem i) xs = []) (he : .exitThread ∉ xs)
    (hp : (∀ c ∈ Function.update σ s.kernel.running (σ s.kernel.running ++ [s.kernel.nextTid]) s.kernel.running,
      (s.after act p).reaped s.kernel.running c = false) → (s.after act p).Place
        (Function.update σ s.kernel.running (σ s.kernel.running ++ [s.kernel.nextTid])) s.kernel.running pc)
    (hr : ∀ c ∈ σ s.kernel.running, s.reaped s.kernel.running c = false) : ∃ σ', (s.after act p).Inv σ' := by
  obtain ⟨σ', hb⟩ := hb
  have hbase := h.1.base.1
  have hlists : Represents p.children (Function.update σ s.kernel.running (σ s.kernel.running ++ [s.kernel.nextTid])) :=
    hm.children ▸ hbase.forkProcess.lists
  obtain rfl := hlists.unique hb.1.lists
  have hself := hm.cont_self hout (Nat.ne_of_lt hbase.sane.exists_running)
  have hpc : (s.after act p).pc s.kernel.running = pc := (congrFun hm.pc _).trans (Function.update_self ..)
  refine ⟨_, h.update (hm.common h.1 hact hf hb) (fun t ht => hm.keeps h.1 hact hf ht)
    ⟨fun i hi => absurd ((congrArg (pending _) hself).trans (hxs i)) hi, fun _ hin => absurd (hself ▸ hin) he, ?_⟩⟩
  rw [hpc]
  refine hp fun c hc => ?_
  rw [Function.update_self] at hc
  rw [after_reaped hact]
  rcases List.mem_append.mp hc with hc | hc
  · exact hr c hc
  · exact h.1.not_reaped_fresh (List.mem_singleton.mp hc).ge _

/-! ### Steps of the kernel -/

namespace Inv

/-- A step of the kernel that leaves the semaphores, and what is pending on them. -/
theorem kernel_same (h : s.Inv σ) {act : ProcessAction} {k' : Kernel M} (hact : act ≠ .kernel .run)
    (hf : ¬ s.Forking act) (hb : ∃ σ', Processes.Inv { s.toProcesses with kernel := k' } σ')
    (hnext : k'.nextTid = s.kernel.nextTid) (hv : k'.value = s.kernel.value)
    (hp : ∀ t i, pending (.sem i) (k'.cont t) = pending (.sem i) (s.kernel.cont t))
    (he : ∀ t, .exitThread ∈ k'.cont t → .exitThread ∈ s.kernel.cont t) :
    (s.after act { s.toProcesses with kernel := k' }).Inv σ := by
  obtain ⟨σ', hb⟩ := hb
  obtain rfl : σ' = σ := h.1.lists.unique hb.1.lists
  have hr := after_reaped (s := s) hact { s.toProcesses with kernel := k' }
  have hfork := after_forkedBy hf { s.toProcesses with kernel := k' }
  refine ⟨⟨hb, fun q c hc => ?_, fun c q hq => ?_, fun q c hc => ?_, fun c hvc => ?_⟩, fun t => ?_⟩
  · rw [hfork]
    exact h.1.forked q c hc
  · rw [hfork] at hq
    show q < c ∧ c < k'.nextTid
    rw [hnext]
    exact h.1.parent c q hq
  · rw [hr] at hc
    rw [hfork]
    exact h.1.reaped q c hc
  · have hv' : k'.value (.sem (reapSema c)) ≠ 0 := hvc
    rw [hv] at hv'
    unfold ReapedByParent
    rw [hr, hfork]
    exact h.1.posted c hv'
  · have hk : Keeps s (s.after act { s.toProcesses with kernel := k' }) σ' σ' t :=
      ⟨rfl, rfl, fun c q hq => hfork ▸ hq, fun c => by rw [hr], fun q c hc => hr ▸ hc, hp t,
        fun hproc hin => ⟨hproc, he t hin⟩⟩
    exact hk.at_ (h.2 t)

end Inv

section
variable {M : Type} {s s' : Reaping M} {σ : ℕ → List ℕ}

/-- A process increments a `reap_sema` in the two loops only. -/
theorem Inv.increments (h : s.Inv σ) {c : ℕ} {xs : List Stmt}
    (hc : s.kernel.cont s.kernel.running = .semaphoreInc (.sem (reapSema c)) :: xs) :
    (∃ p status, s.pc s.kernel.running = .waitInc p status c) ∨ s.pc s.kernel.running = .exitInc c := by
  have hpend : pending (.sem (reapSema c)) (s.kernel.cont s.kernel.running) =
      .semaphoreInc (.sem (reapSema c)) :: pending (.sem (reapSema c)) xs := by
    rw [hc, pending_cons_of_eq rfl]
  have hsema := (h.2 s.kernel.running).sema (reapSema c) (by rw [hpend]; exact List.cons_ne_nil _ _)
  have hplace := (h.2 s.kernel.running).place
  cases hpc : s.pc s.kernel.running with
  | waitInc p status chld =>
      rw [hpc, semaOf, Option.some.injEq, reapSema_inj] at hsema
      exact .inl ⟨p, status, hsema ▸ rfl⟩
  | exitInc chld =>
      rw [hpc, semaOf, Option.some.injEq, reapSema_inj] at hsema
      exact .inr (hsema ▸ rfl)
  | exitReap =>
      rw [hpc, semaOf, Option.some.injEq, reapSema_inj] at hsema
      rw [hpc] at hplace
      subst hsema
      exact absurd (hpend ▸ List.mem_cons_self) hplace.1
  | waitDec p chld =>
      rw [hpc, semaOf, Option.some.injEq] at hsema
      exact absurd hsema (waitSema_ne_reapSema _ _)
  | exitSelf =>
      rw [hpc, semaOf, Option.some.injEq] at hsema
      exact absurd hsema (waitSema_ne_reapSema _ _)
  | _ =>
      rw [hpc] at hsema
      cases hsema

/-- The one that increments a `reap_sema` is the parent, and does not come to the child again. -/
theorem Inv.increments_forkedBy (h : s.Inv σ) {c : ℕ} {xs : List Stmt}
    (hc : s.kernel.cont s.kernel.running = .semaphoreInc (.sem (reapSema c)) :: xs) :
    s.forkedBy c = some s.kernel.running := by
  rcases h.increments hc with ⟨p, status, hpc⟩ | hpc
  · exact (h.place_eq hpc).1
  · obtain ⟨ys, hys, -⟩ := h.place_eq hpc
    exact h.1.forked _ _ (hys.subset List.mem_cons_self)

end

section
variable {M : Type} [ThreadQueues M] {s s' : Reaping M} {σ : ℕ → List ℕ} {k' : Kernel M} {stmt : Stmt} {xs : List Stmt}

omit [ThreadQueues M] in
theorem increments_iff (hc : s.kernel.cont s.kernel.running = stmt :: xs) (c : ℕ) :
    s.Increments (.kernel .run) c ↔ stmt = .semaphoreInc (.sem (reapSema c)) := by
  simp [Increments, hc]

omit [ThreadQueues M] in
theorem run_reaped (hc : s.kernel.cont s.kernel.running = stmt :: xs) (p : Processes M) (q c : ℕ) :
    (s.after (.kernel .run) p).reaped q c = true ↔
      s.reaped q c = true ∨ (q = s.kernel.running ∧ stmt = .semaphoreInc (.sem (reapSema c))) := by
  simp [after, increments_iff hc]

omit [ThreadQueues M] in
theorem run_reapedByParent (hc : s.kernel.cont s.kernel.running = stmt :: xs) (p : Processes M) {c : ℕ}
    (h : s.ReapedByParent c = true) : (s.after (.kernel .run) p).ReapedByParent c = true := by
  have hf : ¬ s.Forking (.kernel .run) := by simp [Forking]
  refine reapedByParent_mono (fun c q hq => ?_) (fun q c hq => (run_reaped hc p q c).mpr (.inl hq)) h
  rw [after_forkedBy hf]
  exact hq

omit [ThreadQueues M] in
/-- A statement that is not the increment leaves it out. -/
theorem run_not_reaped (hc : s.kernel.cont s.kernel.running = stmt :: xs) (p : Processes M) {q c : ℕ}
    (h : s.reaped q c = false) (hn : q = s.kernel.running → stmt ≠ .semaphoreInc (.sem (reapSema c))) :
    (s.after (.kernel .run) p).reaped q c = false := by
  rw [← Bool.not_eq_true, run_reaped hc, h]
  rintro (hr | ⟨hq, hs⟩)
  · cases hr
  · exact hn hq hs

/-- What a statement does to the semaphores it does not use. -/
theorem run_pending (he : s.kernel.Effect stmt xs k') (hc : s.kernel.cont s.kernel.running = stmt :: xs) {i : ℕ}
    (hi : stmt.sema? ≠ some (.sem i)) :
    pending (.sem i) (k'.cont s.kernel.running) = pending (.sem i) (s.kernel.cont s.kernel.running) := by
  rw [he.self, pending_contAfter _ hi, hc, pending_cons_of_ne hi]

theorem Incrementing.run (he : s.kernel.Effect stmt xs k') (hc : s.kernel.cont s.kernel.running = stmt :: xs) {c : ℕ}
    (h : s.Incrementing s.kernel.running c) :
    (s.after (.kernel .run) { s.toProcesses with kernel := k' }).Incrementing s.kernel.running c := by
  by_cases hi : stmt.sema? = some (.sem (reapSema c))
  · rcases h with ⟨-, hp⟩ | ⟨-, hp⟩
    · rw [hc, pending_cons_of_eq hi] at hp
      cases hp
    · rw [hc, pending_cons_of_eq hi] at hp
      obtain ⟨rfl, hx⟩ := List.cons.inj hp
      refine .inl ⟨(run_reaped hc _ _ _).mpr (.inr ⟨rfl, rfl⟩), ?_⟩
      exact (congrArg (pending _) he.self).trans hx
  · have hpend := run_pending he hc hi
    rcases h with ⟨hr, hp⟩ | ⟨hr, hp⟩
    · exact .inl ⟨(run_reaped hc _ _ _).mpr (.inl hr), hpend.trans hp⟩
    · refine .inr ⟨run_not_reaped hc _ hr fun _ hs => hi (hs ▸ rfl), hpend.trans hp⟩

namespace Inv

/-- Where the running process is behind a statement. -/
theorem run_place (h : s.Inv σ) (he : s.kernel.Effect stmt xs k') (hc : s.kernel.cont s.kernel.running = stmt :: xs) :
    (s.after (.kernel .run) { s.toProcesses with kernel := k' }).Place σ s.kernel.running (s.pc s.kernel.running) := by
  have hplace := (h.2 s.kernel.running).place
  -- the children that are still to come are not the one that is incremented
  have hkeep : ∀ ys : List ℕ, (∀ c ∈ ys, s.reaped s.kernel.running c = false) →
      (∀ c ∈ ys, stmt ≠ .semaphoreInc (.sem (reapSema c))) →
      ∀ c ∈ ys, (s.after (.kernel .run) { s.toProcesses with kernel := k' }).reaped s.kernel.running c = false :=
    fun ys hr hn c hin => run_not_reaped hc _ (hr c hin) fun _ => hn c hin
  have hother : (∀ p status c, s.pc s.kernel.running ≠ .waitInc p status c) → (∀ c, s.pc s.kernel.running ≠ .exitInc c) →
      ∀ c, stmt ≠ .semaphoreInc (.sem (reapSema c)) := by
    intro hw hx c hs
    rcases h.increments (hs ▸ hc) with ⟨p, status, hpc⟩ | hpc
    · exact hw p status c hpc
    · exact hx c hpc
  cases hpc : s.pc s.kernel.running with
  | waitInc p status chld =>
      rw [hpc] at hplace
      obtain ⟨hf, hi, hr⟩ := hplace
      obtain ⟨rfl, -, -, hout, -⟩ := h.1.base.place_eq hpc
      refine ⟨hf, hi.run he hc, hkeep _ hr fun c hin hs => ?_⟩
      rcases h.increments (hs ▸ hc) with ⟨p', status', hpc'⟩ | hpc'
      · rw [hpc] at hpc'
        cases hpc'
        exact hout _ hin
      · rw [hpc] at hpc'
        cases hpc'
  | exitInc chld =>
      rw [hpc] at hplace
      obtain ⟨ys, hys, hi, hr⟩ := hplace
      refine ⟨ys, hys, hi.run he hc, hkeep _ hr fun c hin hs => ?_⟩
      rcases h.increments (hs ▸ hc) with ⟨p', status', hpc'⟩ | hpc'
      · rw [hpc] at hpc'
        cases hpc'
      · rw [hpc] at hpc'
        cases hpc'
        have hnd := (h.1.lists.holds s.kernel.running).nodup.sublist hys.sublist
        exact (List.nodup_cons.mp hnd).1 hin
  | exitLoop el =>
      rw [hpc] at hplace
      obtain ⟨ys, hys, hel, hr⟩ := hplace
      exact ⟨ys, hys, hel, hkeep _ hr fun c _ => hother (by simp [hpc]) (by simp [hpc]) c⟩
  | exitSelf => trivial
  | exitReap =>
      rw [hpc] at hplace
      obtain ⟨hno, hr⟩ := hplace
      have hinc := hother (by simp [hpc]) (by simp [hpc]) s.kernel.running
      refine ⟨fun hin => ?_, fun hnil => run_reapedByParent hc _ ?_⟩
      · have hin' : .semaphoreInc (.sem (reapSema s.kernel.running)) ∈ k'.cont s.kernel.running :=
          List.mem_of_mem_filter hin
        exact hno (List.mem_filter.mpr ⟨he.called hc hin' trivial, by simp [Stmt.sema?]⟩)
      · -- it returns from `semaphore_dec` only when the semaphore is not zero
        by_cases hp : pending (.sem (reapSema s.kernel.running)) (s.kernel.cont s.kernel.running) = []
        · exact hr hp
        · apply h.1.posted
          intro hv
          exact he.keeps_waiting hc (hc ▸ h.1.base.1.sane.formed _) hinc hv hp hnil
  | exited =>
      rw [hpc] at hplace
      exact run_reapedByParent hc _ hplace
  | _ =>
      rw [hpc] at hplace
      exact hkeep _ hplace fun c _ => hother (by simp [hpc]) (by simp [hpc]) c

/-- One statement of the running thread. -/
theorem run (h : s.Inv σ) (hs : s.kernel.step .run = some k')
    (hb : ∃ σ', Processes.Inv { s.toProcesses with kernel := k' } σ') :
    (s.after (.kernel .run) { s.toProcesses with kernel := k' }).Inv σ := by
  obtain ⟨σ', hb⟩ := hb
  obtain rfl : σ' = σ := h.1.lists.unique hb.1.lists
  obtain ⟨stmt, xs, hc, he, -⟩ := run_effect h.1.base.1.sane hs
  have hmono : ∀ q c, s.reaped q c = true →
      (s.after (.kernel .run) { s.toProcesses with kernel := k' }).reaped q c = true :=
    fun q c hq => (run_reaped hc _ q c).mpr (.inl hq)
  have hf : ¬ s.Forking (.kernel .run) := by simp [Forking]
  have hfork := after_forkedBy hf { s.toProcesses with kernel := k' }
  have hothers : ∀ t i, t ≠ s.kernel.running → pending (.sem i) (k'.cont t) = pending (.sem i) (s.kernel.cont t) :=
    fun t i ht => he.pending_others ht fun hn => (h.1.base.1.fresh t hn.ge).2.2 _
  refine h.update ⟨hb, fun q c hin => ?_, fun c q hq => ?_, fun q c hq => ?_, fun c hv => ?_⟩ (fun t ht => ?_) ?_
  · rw [hfork]
    exact h.1.forked q c hin
  · rw [hfork] at hq
    exact ⟨(h.1.parent c q hq).1, Nat.lt_of_lt_of_le (h.1.parent c q hq).2 he.nextTid⟩
  · rw [hfork]
    rcases (run_reaped hc _ q c).mp hq with hq | ⟨rfl, hst⟩
    · exact h.1.reaped q c hq
    · exact h.increments_forkedBy (hst ▸ hc)
  · by_cases hst : stmt = .semaphoreInc (.sem (reapSema c))
    · refine reapedByParent_iff.mpr ⟨s.kernel.running, ?_, (run_reaped hc _ _ _).mpr (.inr ⟨rfl, hst⟩)⟩
      rw [hfork]
      exact h.increments_forkedBy (hst ▸ hc)
    · have hv' : s.kernel.value (.sem (reapSema c)) ≠ 0 := fun h₀ =>
        hv (he.stays_zero (hc ▸ h.1.base.1.sane.formed _) hst h₀)
      exact run_reapedByParent hc _ (h.1.posted c hv')
  · refine ⟨rfl, rfl, fun c q hq => hfork ▸ hq, fun c => ?_, hmono, fun i => hothers t i ht, fun hp hin => ?_⟩
    · rw [Bool.eq_iff_iff, run_reaped hc]
      simp [ht]
    · exact ⟨hp, he.called hc hin trivial⟩
  · refine ⟨fun i hi => ?_, fun hp hin => ?_, h.run_place he hc⟩
    · refine (h.2 _).sema i fun hnil => ?_
      by_cases hst : stmt.sema? = some (.sem i)
      · rw [hc, pending_cons_of_eq hst] at hnil
        cases hnil
      · exact hi ((run_pending he hc hst).trans hnil)
    · exact (h.2 _).exits hp (he.called hc hin trivial)

/-- **One step**, of the kernel or of a process. -/
theorem step (h : s.Inv σ) {act : ProcessAction} (hok : s.Unrelated act) (hs : s.step act = some s') :
    ∃ σ', s'.Inv σ' := by
  obtain ⟨p, hp, rfl⟩ := Option.map_eq_some_iff.mp hs
  have hb := h.1.base.step hok.1 hp
  cases act with
  | kernel act =>
      obtain ⟨k', hk, rfl⟩ := Processes.step_kernel hp
      cases act with
      | call op =>
          obtain ⟨hidle, hc, rfl⟩ := step_call hk
          have hpc : s.pc s.kernel.running = .user := Processes.step_user hp
          have hr : ∀ c ∈ σ s.kernel.running, s.reaped s.kernel.running c = false := h.place_eq hpc
          have hself : (s.kernel.enter op.body).cont s.kernel.running = op.body := by
            rw [enter_self, hc, List.append_nil]
          have hm : s.Moves { s.toProcesses with kernel := s.kernel.enter op.body } .user op.body := by
            refine ⟨rfl, ?_, rfl⟩
            rw [← hpc, Function.update_eq_self]
          obtain ⟨σ', hb⟩ := hb
          obtain rfl : σ' = σ := h.1.lists.unique hb.1.lists
          refine ⟨σ', h.moves hm (by simp) (by simp [Forking]) hb (fun _ _ hin => hin) (fun _ _ => rfl)
            (.of_call hself hpc (fun i hi => ?_) (fun he hproc => ?_) ?_)⟩
          · rcases hi with rfl | rfl
            · exact hok.1.elim
            · exact hok.1.elim
          · exact absurd ⟨by rw [he], hproc⟩ hok.2
          · show ∀ c ∈ σ' s.kernel.running, _
            rwa [after_reaped (by simp)]
      | run => exact ⟨σ, h.run hk hb⟩
      | interrupt =>
          have hsw := yieldCurrent_switch (step_interrupt hk).2
          refine ⟨σ, h.kernel_same (by simp) (by simp [Forking]) hb hsw.nextTid hsw.value (fun t i =>
            interrupt_pending hk _ t) fun t hin => ?_⟩
          rw [hsw.cont] at hin
          exact mem_of_mem_enter (k := s.kernel.disableInterrupts) (by simp) hin
  | fork =>
      obtain ⟨hidle, rfl⟩ := Processes.step_fork hp
      have hr : ∀ c ∈ σ s.kernel.running, s.reaped s.kernel.running c = false := h.place_eq hidle.2
      exact h.forks hidle.1 .forking (ThreadOp.threadUnblock s.forkProcess.2).body ⟨rfl, rfl, rfl, rfl⟩
        (by simp) (.inl rfl) hb (fun _ => rfl) (by simp [ThreadOp.body]) id hr
  | wait p =>
      obtain ⟨hidle, rfl⟩ := Processes.step_wait hp
      have hr : ∀ c ∈ σ s.kernel.running, s.reaped s.kernel.running c = false := h.place_eq hidle.2
      refine ⟨σ, h.goes hidle.1 (.waitLoop p (-1) _) (.of_eq rfl rfl rfl) (by simp) (by simp [Forking]) hb rfl ?_⟩
      show ∀ c ∈ σ s.kernel.running, _
      rwa [after_reaped (by simp)]
  | exit status =>
      obtain ⟨hidle, rfl⟩ := Processes.step_exit hp
      have hr : ∀ c ∈ σ s.kernel.running, s.reaped s.kernel.running c = false := h.place_eq hidle.2
      refine ⟨σ, h.goes hidle.1 (.exitLoop _) (.of_eq rfl rfl rfl) (by simp) (by simp [Forking]) hb rfl
        ⟨_, List.suffix_refl _, h.1.lists.listBegin_eq _, ?_⟩⟩
      rwa [after_reaped (by simp)]
  | advance =>
      obtain ⟨hout, hp⟩ := Processes.advance_of_step hp
      by_cases hpc : s.pc s.kernel.running = .forking
      · have hr : ∀ c ∈ σ s.kernel.running, s.reaped s.kernel.running c = false := h.place_eq hpc
        have hf : s.Forking .advance := .inr ⟨rfl, hpc⟩
        rw [hpc] at hp
        cases hp
        exact h.forks hout .user [] ⟨(enter_nil _).symm, rfl, rfl, rfl⟩ (by simp) hf hb (fun _ => rfl)
          List.not_mem_nil id hr
      · exact h.advance hout hpc hp

/-! ### Uses of children -/

omit [ThreadQueues M] in
/-- A process ends behind the increment of its `reap_sema` by its parent. -/
theorem exits (h : s.Inv σ) {act : ProcessAction} (he : s.Exits act) : s.ReapedByParent s.kernel.running = true := by
  obtain ⟨-, hproc, hhead⟩ := he
  have hpc := (h.2 _).exits hproc (List.mem_of_mem_head? hhead)
  exact h.place_eq hpc

omit [ThreadQueues M] in
theorem incremented {c : ℕ} (h : s.Incrementing s.kernel.running c) (hout : s.Outside) : s.reaped s.kernel.running c = true := by
  rcases h with ⟨hr, -⟩ | ⟨-, hp⟩
  · exact hr
  · rw [hout.2.1] at hp
    cases hp

omit [ThreadQueues M] in
/-- Appending a new child uses the last one. -/
theorem touched_fork (h : s.Inv σ) (hr : ∀ c ∈ σ s.kernel.running, s.reaped s.kernel.running c = false) {c : ℕ}
    (hc : c ∈ s.kernel.nextTid :: (listBack s.children s.kernel.running).node?.toList) :
    s.reaped s.kernel.running c = false := by
  rcases List.mem_cons.mp hc with rfl | hc
  · exact h.1.not_reaped_fresh (Nat.le_refl _) _
  · apply hr
    rw [(h.1.lists.holds s.kernel.running).reads.back] at hc
    cases hx : (σ s.kernel.running).getLast? with
    | none => simp [hx] at hc
    | some d =>
        have hcd : c = d := by simpa [hx, eq_comm] using hc
        exact hcd ▸ List.mem_of_getLast? hx

omit [ThreadQueues M] in
theorem touched_sema (h : s.Inv σ) {i : ℕ} (hi : pending (.sem i) (s.kernel.cont s.kernel.running) ≠ []) :
    s.reaped s.kernel.running (i / 2) = false := by
  have hsema := (h.2 s.kernel.running).sema i hi
  have hwait : ∀ c, waitSema c / 2 = c := fun c => by unfold waitSema; omega
  have hreap : ∀ c, reapSema c / 2 = c := fun c => by unfold reapSema; omega
  have hincr : ∀ c, i = reapSema c → s.Incrementing s.kernel.running c → s.reaped s.kernel.running c = false := by
    rintro c rfl (⟨-, hp⟩ | ⟨hr, -⟩)
    · exact absurd hp hi
    · exact hr
  cases hpc : s.pc s.kernel.running with
  | waitDec p chld =>
      have hr : ∀ c ∈ σ s.kernel.running, s.reaped s.kernel.running c = false := h.place_eq hpc
      obtain ⟨rfl, -, hin, -⟩ := h.1.base.place_eq hpc
      rw [hpc, semaOf, Option.some.injEq] at hsema
      rw [← hsema, hwait]
      exact hr _ hin
  | waitInc p status chld =>
      rw [hpc, semaOf, Option.some.injEq] at hsema
      rw [← hsema, hreap]
      exact hincr _ hsema.symm (h.place_eq hpc).2.1
  | exitInc chld =>
      obtain ⟨-, -, hi', -⟩ := h.place_eq hpc
      rw [hpc, semaOf, Option.some.injEq] at hsema
      rw [← hsema, hreap]
      exact hincr _ hsema.symm hi'
  | exitSelf =>
      rw [hpc, semaOf, Option.some.injEq] at hsema
      rw [← hsema, hwait]
      exact h.1.not_reaped_self _
  | exitReap =>
      rw [hpc, semaOf, Option.some.injEq] at hsema
      rw [← hsema, hreap]
      exact h.1.not_reaped_self _
  | _ =>
      rw [hpc] at hsema
      cases hsema

omit [ThreadQueues M] in
theorem touched_advance (h : s.Inv σ) (hgo : ¬ s.GoesOn .advance) : ∀ c ∈ s.touched .advance,
    s.reaped s.kernel.running c = false := by
  intro c hc
  unfold touched at hc
  cases hpc : s.pc s.kernel.running with
  | forking =>
      rw [hpc] at hc
      exact h.touched_fork (h.place_eq hpc) hc
  | waitLoop p status e =>
      have hr : ∀ c ∈ σ s.kernel.running, s.reaped s.kernel.running c = false := h.place_eq hpc
      obtain ⟨ys, hys, rfl, -⟩ := h.1.base.place_eq hpc
      rw [hpc] at hc
      cases ys with
      | nil => cases hc
      | cons d ys =>
          rw [show c = d from List.mem_singleton.mp hc]
          exact hr d (hys.subset List.mem_cons_self)
  | waitDec p chld =>
      have hr : ∀ c ∈ σ s.kernel.running, s.reaped s.kernel.running c = false := h.place_eq hpc
      obtain ⟨rfl, -, hin, -⟩ := h.1.base.place_eq hpc
      rw [hpc] at hc
      rw [List.mem_singleton.mp hc]
      exact hr _ hin
  | waitRemove p status chld =>
      have hr : ∀ c ∈ σ s.kernel.running, s.reaped s.kernel.running c = false := h.place_eq hpc
      obtain ⟨rfl, -, hin, -⟩ := h.1.base.place_eq hpc
      rw [hpc] at hc
      -- the neighbours are children, or the ends of the list
      have hcell : ∀ el : Elem ℕ ℕ, el ∈ cells s.kernel.running (σ s.kernel.running) → c ∈ el.node?.toList →
          s.reaped s.kernel.running c = false := by
        intro el hel hcel
        cases el with
        | node d =>
            rw [show c = d from List.mem_singleton.mp hcel]
            exact hr d (node_mem_cells.mp hel)
        | _ => cases hcel
      obtain ⟨hprev, hnext⟩ := h.1.lists.neighbours hin
      rcases List.mem_cons.mp hc with rfl | hc
      · exact hr _ hin
      · rcases List.mem_append.mp hc with hc | hc
        · exact hcell _ hprev hc
        · exact hcell _ hnext hc
  | exitLoop el =>
      obtain ⟨ys, -, rfl, hr⟩ := h.place_eq hpc
      rw [hpc] at hc
      cases ys with
      | nil => cases hc
      | cons d ys =>
          rw [show c = d from List.mem_singleton.mp hc]
          exact hr d List.mem_cons_self
  | waitInc p status chld => exact absurd ⟨rfl, by rw [hpc]; rfl⟩ hgo
  | exitInc chld => exact absurd ⟨rfl, by rw [hpc]; rfl⟩ hgo
  | _ =>
      rw [hpc] at hc
      cases hc

/-- **One step** uses no child behind the increment of its `reap_sema`, unless a traversal goes on from it. -/
theorem touched_iff (h : s.Inv σ) {act : ProcessAction} {p : Processes M} (hs : s.toProcesses.step act = some p) :
    (∀ c ∈ s.touched act, s.reaped s.kernel.running c = false) ↔ ¬ s.GoesOn act := by
  constructor
  · rintro hno ⟨rfl, hb⟩
    obtain ⟨hout, -⟩ := Processes.advance_of_step hs
    cases hpc : s.pc s.kernel.running with
    | waitInc pid status chld =>
        have hr := hno chld (by simp [touched, hpc])
        rw [incremented (h.place_eq hpc).2.1 hout] at hr
        cases hr
    | exitInc chld =>
        obtain ⟨-, -, hi, -⟩ := h.place_eq hpc
        have hr := hno chld (by simp [touched, hpc])
        rw [incremented hi hout] at hr
        cases hr
    | _ =>
        rw [hpc] at hb
        cases hb
  · intro hgo
    cases act with
    | kernel act =>
        cases act with
        | run =>
            intro c hc
            unfold touched at hc
            cases hcont : s.kernel.cont s.kernel.running with
            | nil => simp [hcont] at hc
            | cons stmt xs =>
                cases hst : stmt.sema? with
                | none => simp [hcont, hst] at hc
                | some x =>
                    cases x with
                    | binary l => simp [hcont, hst] at hc
                    | sem i =>
                        have hci : c = i / 2 := by simpa [hcont, hst] using hc
                        rw [hci]
                        apply h.touched_sema
                        rw [hcont, pending_cons_of_eq hst]
                        exact List.cons_ne_nil _ _
        | _ => exact fun c hc => absurd hc List.not_mem_nil
    | fork =>
        obtain ⟨hidle, -⟩ := Processes.step_fork hs
        exact fun c hc => h.touched_fork (h.place_eq hidle.2) hc
    | advance => exact h.touched_advance hgo
    | _ => exact fun c hc => absurd hc List.not_mem_nil

end Inv

/-- A step is safe exactly if it does not go on from a child that was reaped. -/
theorem Inv.safe_iff (h : s.Inv σ) {act : ProcessAction} (hs : s.step act = some s') :
    (s'.late = [] ↔ s.late = [] ∧ ¬ s.GoesOn act) ∧ s'.early = s.early := by
  obtain ⟨p, hp, rfl⟩ := Option.map_eq_some_iff.mp hs
  have hno : ¬ (s.Exits act ∧ s.ReapedByParent s.kernel.running = false) := by
    rintro ⟨he, hr⟩
    rw [h.exits he] at hr
    cases hr
  refine ⟨?_, if_neg hno⟩
  rw [← h.touched_iff hp]
  simp [after, and_comm]

theorem inv_start (mem : M) (level : InterruptLevel) (intr : Bool) : (start mem level intr).Inv fun _ => [] := by
  refine ⟨⟨Processes.inv_start mem level intr, fun q c hc => ?_, fun c q hq => ?_, fun q c hq => ?_, fun c hv => ?_⟩,
    fun t => ⟨fun i hi => ?_, fun _ hin => ?_, fun c hc => ?_⟩⟩
  · cases hc
  · cases hq
  · cases hq
  · exact absurd (initThreads_value mem (fun _ => 0) level intr _) hv
  · exact absurd (initThreads_pending mem (fun _ => 0) level intr _ t) hi
  · exact absurd hin (initThreads_not_mem mem (fun _ => 0) level intr (by simp) t)
  · cases hc

end

end Reaping

open Reaping

/-- **What parents do with children.**  In every run of `fork`, `wait` and `exit_process`, every child that ended by
`exit_thread` did so behind the increment of its `reap_sema` by the process that forked it.  And no parent ever used
a child behind that increment exactly if no traversal ever went on from such a child. -/
theorem reaping_safe_iff {M : Type} [ThreadQueues M] {mem : M} {level : InterruptLevel} {intr : Bool} {s : Reaping M}
    (h : Transition.Reach Reaping.step Unrelated (start mem level intr) s) :
    s.early = [] ∧ (s.Safe ↔
      Transition.Reach Reaping.step (fun s act => s.Unrelated act ∧ ¬ s.GoesOn act) (start mem level intr) s) := by
  have hinv : ∀ s, Transition.Reach Reaping.step Unrelated (start mem level intr) s → ∃ σ, s.Inv σ := by
    intro s h
    refine h.invariant (I := fun s => ∃ σ, s.Inv σ) ⟨_, inv_start mem level intr⟩ ?_
    rintro s act s' ⟨σ, hi⟩ hok hs
    exact hi.step hok hs
  have hearly : s.early = [] := by
    have hboth := h.invariant (I := fun s => (∃ σ, s.Inv σ) ∧ s.early = []) ⟨⟨_, inv_start mem level intr⟩, rfl⟩ ?_
    · exact hboth.2
    · rintro s act s' ⟨⟨σ, hi⟩, he⟩ hok hs
      exact ⟨hi.step hok hs, (hi.safe_iff hs).2.trans he⟩
  refine ⟨hearly, ?_⟩
  have hlate : s.Safe ↔ s.late = [] := and_iff_left hearly
  rw [hlate]
  refine Transition.Reach.good_iff (G := fun s => s.late = []) rfl (fun s act s' hr _ hs => ?_) h
  obtain ⟨σ, hi⟩ := hinv s hr
  exact (hi.safe_iff hs).1

/-- A kernel thread `2` and the processes `3` and `4`, then `5` and `6`, the children of `3`.  Process `3` exits and
increments the `reap_sema` of `5`; it is interrupted, and `5` exits. -/
def exitInWindow : List ProcessAction :=
  [.kernel (.call .createThread), .kernel .run, .fork, .kernel .run, .advance, .kernel (.call .yieldCurrent),
    .kernel .run, .kernel .run, .kernel (.call .yieldCurrent), .kernel .run, .fork, .kernel .run, .advance, .exit 0,
    .advance, .kernel .run, .kernel .interrupt, .kernel (.call .yieldCurrent), .kernel .run, .exit 7, .advance,
    .kernel .run, .advance, .kernel .run, .advance, .kernel .run, .kernel .run]

def noLists : ListMem Queue ℕ := ⟨fun _ => null, fun _ => null, fun _ => 0⟩

theorem reaping_safe_iff_window : ∃ s, Transition.runs Reaping.step Unrelated (start noLists .enabled true) exitInWindow =
    some s ∧ s.early = [] ∧ Transition.Reach Reaping.step (fun s act => s.Unrelated act ∧ ¬ s.GoesOn act)
      (start noLists .enabled true) s := by
  have hrun : (Transition.runs Reaping.step Unrelated (start noLists .enabled true) exitInWindow).map
      (fun s => s.late) = some [] := by
    decide +kernel
  obtain ⟨s, hs, hl⟩ := Option.map_eq_some_iff.mp hrun
  have hboth := reaping_safe_iff (.of_runs hs)
  exact ⟨s, hs, hboth.1, hboth.2.mp ⟨hl, hboth.1⟩⟩

/-- Then `3` reads the link of `5`, which is dead. -/
theorem reaping_uses_dead_child :
    ∃ s, Transition.Reach Reaping.step Unrelated (start noLists .enabled true) s ∧ s.late = [(3, 5)] ∧
      s.kernel.status 5 = .dead ∧ ¬ s.Safe := by
  have hrun : (Transition.runs Reaping.step Unrelated (start noLists .enabled true) (exitInWindow ++ [.advance])).map
      (fun s => (s.late, s.kernel.status 5)) = some ([(3, 5)], .dead) := by
    decide +kernel
  obtain ⟨s, hs, he⟩ := Option.map_eq_some_iff.mp hrun
  obtain ⟨hl, hd⟩ := Prod.mk.inj he
  refine ⟨s, .of_runs hs, hl, hd, fun hsafe => ?_⟩
  exact List.cons_ne_nil _ _ (hl.symm.trans hsafe.1)

end Dunkos
