import Dunkos.Lib.Reach
import Mathlib.Logic.Function.Basic

/-! # Lock discipline

A thread's use of locks is a list of events.  It is `Disciplined` when the thread takes only locks that it does not
hold, and gives back only locks that it holds.  `Threads` runs any number of such lists, in any order, on binary
semaphores.  `safe_of_disciplined` says that then no semaphore exceeds 1, and no thread waits for a lock that it holds
itself. -/

namespace LockTrace

open Function Transition

/-- `free` gives up the memory of a lock; the next lock there is a new one. -/
inductive Event (L : Type*) where
  | acquire (l : L)
  | release (l : L)
  | free (l : L)
deriving DecidableEq, Repr

variable {L T : Type*} [DecidableEq L] [DecidableEq T]

def Event.lock : Event L → L
  | acquire l => l
  | release l => l
  | free l => l

/-- What the thread holds then. -/
def Event.apply (held : L → Bool) : Event L → L → Bool
  | acquire l => update held l true
  | release l => update held l false
  | free l => update held l false

def Event.Allowed (held : L → Bool) : Event L → Prop
  | acquire l => held l = false
  | release l => held l = true
  | free l => held l = true

instance (held : L → Bool) (e : Event L) : Decidable (e.Allowed held) := by
  cases e <;> exact inferInstanceAs (Decidable (_ = _))

def heldAfter (held : L → Bool) (es : List (Event L)) : L → Bool := es.foldl Event.apply held

def Disciplined : (L → Bool) → List (Event L) → Prop
  | _, [] => True
  | held, e :: es => e.Allowed held ∧ Disciplined (e.apply held) es

@[simp] theorem heldAfter_nil (held : L → Bool) : heldAfter held [] = held := rfl

@[simp] theorem heldAfter_append (held : L → Bool) (es es' : List (Event L)) :
    heldAfter held (es ++ es') = heldAfter (heldAfter held es) es' := List.foldl_append

@[simp] theorem heldAfter_cons (held : L → Bool) (e : Event L) (es : List (Event L)) :
    heldAfter held (e :: es) = heldAfter (e.apply held) es := rfl

@[simp] theorem disciplined_nil (held : L → Bool) : Disciplined held [] := trivial

theorem disciplined_append {held : L → Bool} {es es' : List (Event L)} :
    Disciplined held (es ++ es') ↔ Disciplined held es ∧ Disciplined (heldAfter held es) es' := by
  induction es generalizing held with
  | nil => simp
  | cons e es ih => simp [Disciplined, ih, and_assoc]

theorem disciplined_concat {held : L → Bool} {es : List (Event L)} {e : Event L} :
    Disciplined held (es ++ [e]) ↔ Disciplined held es ∧ e.Allowed (heldAfter held es) := by
  simp [disciplined_append, Disciplined]

/-- A thread that holds nothing in between may do one disciplined thing after the other. -/
theorem disciplined_flatten {ess : List (List (Event L))}
    (h : ∀ es ∈ ess, Disciplined (fun _ => false) es ∧ heldAfter (fun _ => false) es = fun _ => false) :
    Disciplined (fun _ => false) ess.flatten := by
  induction ess with
  | nil => exact trivial
  | cons es ess ih =>
      rw [List.forall_mem_cons] at h
      rw [List.flatten_cons, disciplined_append, h.1.2]
      exact ⟨h.1.1, ih h.2⟩

/-! ### Any number of threads -/

/-- What the threads have still to do, what they hold, and the semaphores. -/
structure Threads (T L : Type*) where
  rest : T → List (Event L)
  held : T → L → Bool
  value : L → ℕ

namespace Threads

/-- The next event of a thread; a thread whose next lock has the value 0 waits. -/
def step (s : Threads T L) (t : T) : Option (Threads T L) :=
  match s.rest t with
  | [] => none
  | e :: es =>
    let next (value : L → ℕ) : Threads T L := ⟨update s.rest t es, update s.held t (e.apply (s.held t)), value⟩
    match e with
    | .acquire l => if s.value l = 0 then none else some (next (update s.value l (s.value l - 1)))
    | .release l => some (next (update s.value l (s.value l + 1)))
    | .free l => some (next (update s.value l 1))

/-- Nobody holds a lock, and every list is disciplined. -/
structure Started (s : Threads T L) : Prop where
  disciplined : ∀ t, Disciplined (s.held t) (s.rest t)
  held : ∀ t l, s.held t l = false
  value : ∀ l, s.value l = 1

/-- A lock is free, or one thread holds it. -/
structure Inv (s : Threads T L) : Prop where
  disciplined : ∀ t, Disciplined (s.held t) (s.rest t)
  locks : ∀ l, (s.value l = 1 ∧ ∀ t, s.held t l = false) ∨ (s.value l = 0 ∧ ∃ t, ∀ u, s.held u l = true ↔ u = t)

omit [DecidableEq T] in
theorem Started.inv {s : Threads T L} (h : s.Started) : s.Inv :=
  ⟨h.disciplined, fun l => .inl ⟨h.value l, fun t => h.held t l⟩⟩

omit [DecidableEq T] in
theorem Inv.holder {s : Threads T L} (h : s.Inv) {t : T} {l : L} (hl : s.held t l = true) :
    s.value l = 0 ∧ ∀ u, s.held u l = true ↔ u = t := by
  obtain ⟨hzero, v, hv⟩ := (h.locks l).resolve_left fun h₀ => by simp [h₀.2 t] at hl
  obtain rfl := (hv t).mp hl
  exact ⟨hzero, hv⟩

/-- The locks that an event is not about stay where they are. -/
theorem held_of_ne (s : Threads T L) (t u : T) {e : Event L} {m : L} (hm : m ≠ e.lock) :
    update s.held t (e.apply (s.held t)) u m = s.held u m := by
  by_cases hu : u = t
  · subst hu
    cases e <;> simp_all [Event.apply, Event.lock]
  · simp [hu]

/-- A lock that its holder gives up is free. -/
theorem held_of_given {s : Threads T L} {t : T} {e : Event L} (hheld : ∀ u, s.held u e.lock = true ↔ u = t)
    (he : e.apply (s.held t) e.lock = false) (u : T) : update s.held t (e.apply (s.held t)) u e.lock = false := by
  by_cases hu : u = t
  · simp [hu, he]
  · simpa [hu] using hheld u

/-- Each step is about one lock. -/
theorem step_cases {s s' : Threads T L} {t : T} (hs : s.step t = some s') : ∃ e es n, s.rest t = e :: es ∧
    s' = ⟨update s.rest t es, update s.held t (e.apply (s.held t)), update s.value e.lock n⟩ ∧
      ((∃ l, e = .acquire l ∧ s.value l = n + 1) ∨ (∃ l, e = .release l ∧ n = s.value l + 1) ∨ ∃ l, e = .free l ∧ n = 1) := by
  unfold Threads.step at hs
  cases hr : s.rest t with
  | nil => simp [hr] at hs
  | cons e es =>
      cases e with
      | acquire l =>
          have hv : s.value l ≠ 0 := fun h₀ => by simp [hr, h₀] at hs
          simp only [hr, hv, if_false, Option.some.injEq] at hs
          exact ⟨_, _, _, rfl, hs.symm, .inl ⟨l, rfl, by omega⟩⟩
      | release l =>
          simp only [hr, Option.some.injEq] at hs
          exact ⟨_, _, _, rfl, hs.symm, .inr (.inl ⟨l, rfl, rfl⟩)⟩
      | free l =>
          simp only [hr, Option.some.injEq] at hs
          exact ⟨_, _, _, rfl, hs.symm, .inr (.inr ⟨l, rfl, rfl⟩)⟩

theorem Inv.step {s s' : Threads T L} {t : T} (h : s.Inv) (hs : s.step t = some s') : s'.Inv := by
  obtain ⟨e, es, n, hr, rfl, hn⟩ := step_cases hs
  have hd := h.disciplined t
  rw [hr] at hd
  obtain ⟨hallowed, hrest⟩ := hd
  refine ⟨fun u => ?_, fun m => ?_⟩
  · by_cases hu : u = t
    · subst hu
      simpa using hrest
    · simpa [hu] using h.disciplined u
  · by_cases hm : m = e.lock
    · subst hm
      rcases hn with ⟨l, rfl, hn⟩ | ⟨l, rfl, rfl⟩ | ⟨l, rfl, rfl⟩
      · obtain ⟨hone, hnone⟩ := (h.locks l).resolve_right fun h₀ => by omega
        refine .inr ⟨(update_self _ _ _).trans (by omega), t, fun u => ?_⟩
        by_cases hu : u = t
        · simp [hu, Event.apply, Event.lock]
        · simp [hu, hnone u, Event.lock]
      · obtain ⟨hzero, hheld⟩ := h.holder hallowed
        exact .inl ⟨by simp [hzero, Event.lock], held_of_given hheld (update_self _ _ _)⟩
      · obtain ⟨-, hheld⟩ := h.holder hallowed
        exact .inl ⟨update_self _ _ _, held_of_given hheld (update_self _ _ _)⟩
    · simp only [held_of_ne s t _ hm, update_of_ne hm]
      exact h.locks m

/-- No semaphore exceeds 1, and no thread waits for itself. -/
structure Safe (s : Threads T L) : Prop where
  value_le : ∀ l, s.value l ≤ 1
  waits : ∀ t l es, s.rest t = .acquire l :: es → s.held t l = false

omit [DecidableEq T] in
theorem Inv.safe {s : Threads T L} (h : s.Inv) : s.Safe := by
  refine ⟨fun l => ?_, fun t l es hr => ?_⟩
  · rcases h.locks l with ⟨hv, -⟩ | ⟨hv, -⟩ <;> omega
  · have hd := h.disciplined t
    rw [hr] at hd
    exact hd.1

/-- **Discipline suffices**, whatever the order of the steps. -/
theorem safe_of_disciplined {s₀ s : Threads T L} (h₀ : s₀.Started) (h : Reach step (fun _ _ => True) s₀ s) : s.Safe :=
  (h.invariant h₀.inv fun _ _ _ hi _ hs => hi.step hs).safe

end Threads

end LockTrace
