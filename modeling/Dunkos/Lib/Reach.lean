import Mathlib.Data.List.Basic

/-! # Runs of a step function

A system is a partial step function `step : S → A → Option S` (`none` when the action cannot be
taken) together with a side condition `ok : S → A → Prop` on the actions taken.
`Reach step ok s₀ s` says that `s` is reached from `s₀` by finitely many steps whose actions all
meet the condition in the state they are taken in.  `Reach.invariant` is the induction rule that
every safety theorem about runs goes through; `Reach.of_runs` turns an explicit list of actions
into a run.  `foldl_establish` is the rule for loops that set up one object after the other. -/

namespace Transition

variable {S A : Type*} {step : S → A → Option S} {ok ok' : S → A → Prop} {s₀ s t : S}

/-- The states reached from `s₀` by steps whose actions meet `ok`. -/
inductive Reach (step : S → A → Option S) (ok : S → A → Prop) (s₀ : S) : S → Prop
  | start : Reach step ok s₀ s₀
  | next {s t : S} {a : A} : Reach step ok s₀ s → ok s a → step s a = some t → Reach step ok s₀ t

/-- **Invariants.**  What holds at the start and is kept by every step holds in every state
reached. -/
theorem Reach.invariant {I : S → Prop} (h : Reach step ok s₀ s) (start : I s₀)
    (keep : ∀ s a t, I s → ok s a → step s a = some t → I t) : I s := by
  induction h with
  | start => exact start
  | next _ ha hs ih => exact keep _ _ _ ih ha hs

/-- A run under a stronger condition is a run under a weaker one. -/
theorem Reach.mono (h : Reach step ok s₀ s) (hok : ∀ s a, ok s a → ok' s a) :
    Reach step ok' s₀ s := by
  induction h with
  | start => exact .start
  | next _ ha hs ih => exact ih.next (hok _ _ ha) hs

/-- **Exact conditions.**  When a step keeps `G` exactly if it is not one of `B`, a run ends in a state with `G`
exactly if none of its steps is one of `B`. -/
theorem Reach.good_iff {G : S → Prop} {B : S → A → Prop} (start : G s₀)
    (keep : ∀ s a t, Reach step ok s₀ s → ok s a → step s a = some t → (G t ↔ G s ∧ ¬ B s a))
    (h : Reach step ok s₀ s) : G s ↔ Reach step (fun s a => ok s a ∧ ¬ B s a) s₀ s := by
  constructor
  · intro hg
    induction h with
    | start => exact .start
    | next hr ha hs ih =>
        obtain ⟨hg, hb⟩ := (keep _ _ _ hr ha hs).mp hg
        exact (ih hg).next ⟨ha, hb⟩ hs
  · intro hr
    induction hr with
    | start => exact start
    | next hr ha hs ih =>
        have hr' := hr.mono fun _ _ ha => ha.1
        exact (keep _ _ _ hr' ha.1 hs).mpr ⟨ih hr', ha.2⟩

/-- Carry out a list of actions, checking the condition before each. -/
def runs (step : S → A → Option S) (ok : S → A → Prop) [∀ s a, Decidable (ok s a)] :
    S → List A → Option S
  | s, [] => some s
  | s, a :: as => if ok s a then (step s a).bind (fun t => runs step ok t as) else none

theorem Reach.of_runs_from [∀ s a, Decidable (ok s a)] {as : List A} (h : Reach step ok s₀ s)
    (hr : runs step ok s as = some t) : Reach step ok s₀ t := by
  induction as generalizing s with
  | nil =>
      rw [runs, Option.some.injEq] at hr
      exact hr ▸ h
  | cons a as ih =>
      rw [runs] at hr
      split_ifs at hr with ha
      obtain ⟨u, hu, hr⟩ := Option.bind_eq_some_iff.mp hr
      exact ih (h.next ha hu) hr

/-- An explicit list of actions is a run. -/
theorem Reach.of_runs [∀ s a, Decidable (ok s a)] {as : List A}
    (hr : runs step ok s₀ as = some t) : Reach step ok s₀ t :=
  Reach.start.of_runs_from hr

/-- **Set-up loops**: what each round of a loop establishes for its own element, and keeps for all,
holds of every element of the list at the end. -/
theorem foldl_establish {f : S → A → S} {I : S → A → Prop} (own : ∀ s a, I (f s a) a)
    (keep : ∀ s a b, I s a → I (f s b) a) {as : List A} {a : A} {s : S} (h : a ∈ as ∨ I s a) :
    I (as.foldl f s) a := by
  induction as generalizing s with
  | nil => exact h.resolve_left List.not_mem_nil
  | cons b as ih =>
      rw [List.foldl_cons]
      apply ih
      rcases h with h | h
      · rcases List.mem_cons.mp h with rfl | h
        · exact .inr (own s a)
        · exact .inl h
      · exact .inr (keep s a b h)

end Transition
