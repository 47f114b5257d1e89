import Dunkos.Lib.Reach
import Mathlib.Data.List.Induction
import Mathlib.Logic.Function.Basic

/-! # Calls on objects, one at a time

Objects share a memory `D`, of which each has its `view`.  A call on an object is a list of micro-steps on the memory and
on the frame of the call.  A micro-step reads what its object has in view, and changes nothing that another object has in
view (`Micro`).

`State.step` takes the micro-steps of all calls in any order, with one call on an object at a time.  `Reach.asIfAlone` says
that every object is then as if its calls had been made alone, one after the other, in the order in which they began:
their frames at the end are those of `alone`, and so is what the object has in view when no call is on. -/

namespace Serial

open Function Transition

variable {K D V F : Type*} {view : K → D → V} {k : K}

structure Micro (view : K → D → V) (F : Type*) (k : K) where
  run : D × F → D × F
  reads : ∀ d d' f, view k d = view k d' → (run (d, f)).2 = (run (d', f)).2
  writes : ∀ d d' f, view k d = view k d' → view k (run (d, f)).1 = view k (run (d', f)).1
  others : ∀ k', k' ≠ k → ∀ d f, view k' (run (d, f)).1 = view k' d

/-- The object of a call, its frame when it begins, and what it does. -/
structure Call (view : K → D → V) (F : Type*) where
  object : K
  frame : F
  body : List (Micro view F object)

def runAll (ms : List (Micro view F k)) (p : D × F) : D × F := ms.foldl (fun p m => m.run p) p

@[simp] theorem runAll_nil (p : D × F) : runAll ([] : List (Micro view F k)) p = p := rfl

/-- The micro-steps of a loop over the numbers below `n`. -/
def loop : (n : ℕ) → ((i : ℕ) → i < n → Micro view F k) → List (Micro view F k)
  | 0, _ => []
  | n + 1, f => loop n (fun i h => f i (Nat.lt_succ_of_lt h)) ++ [f n (Nat.lt_succ_self n)]

/-- The memory after some calls made one after the other, and their frames. -/
def alone (d : D) (cs : List (Call view F)) : D × List F :=
  cs.foldl (fun r c => let p := runAll c.body (r.1, c.frame); (p.1, r.2 ++ [p.2])) (d, [])

@[simp] theorem alone_nil (d : D) : alone d ([] : List (Call view F)) = (d, []) := rfl

theorem alone_concat (d : D) (cs : List (Call view F)) (c : Call view F) : alone d (cs ++ [c]) =
    ((runAll c.body ((alone d cs).1, c.frame)).1, (alone d cs).2 ++ [(runAll c.body ((alone d cs).1, c.frame)).2]) := by
  unfold alone
  rw [List.foldl_append]
  rfl

/-- A call depends on what its object has in view. -/
theorem runAll_congr (ms : List (Micro view F k)) {d d' : D} (h : view k d = view k d') (f : F) :
    (runAll ms (d, f)).2 = (runAll ms (d', f)).2 ∧ view k (runAll ms (d, f)).1 = view k (runAll ms (d', f)).1 := by
  induction ms generalizing d d' f with
  | nil => exact ⟨rfl, h⟩
  | cons m ms ih =>
      have hf := m.reads d d' f h
      have hd := m.writes d d' f h
      have hstep := ih hd (m.run (d, f)).2
      rwa [show ((m.run (d', f)).1, (m.run (d, f)).2) = m.run (d', f) by rw [hf]] at hstep

/-! ### Calls that interleave -/

/-- `active` is the frame of the call on an object and what it has still to do; `calls` are those that have begun, and
`results` the frames of those that have ended. -/
structure State (view : K → D → V) (F : Type*) where
  mem : D
  active : (k : K) → Option (F × List (Micro view F k))
  calls : K → List (Call view F)
  results : K → List F

inductive Step (view : K → D → V) (F : Type*) where
  | begin (c : Call view F)
  | micro (k : K)
  | finish (k : K)

namespace State

def start (d : D) : State view F := ⟨d, fun _ => none, fun _ => [], fun _ => []⟩

variable [DecidableEq K] (s : State view F)

def step : Step view F → Option (State view F)
  | .begin c =>
      match s.active c.object with
      | none => some { s with
          active := update s.active c.object (some (c.frame, c.body))
          calls := update s.calls c.object (s.calls c.object ++ [c]) }
      | some _ => none
  | .micro k =>
      match s.active k with
      | some (f, m :: ms) => some { s with
          mem := (m.run (s.mem, f)).1
          active := update s.active k (some ((m.run (s.mem, f)).2, ms)) }
      | _ => none
  | .finish k =>
      match s.active k with
      | some (f, []) => some { s with
          active := update s.active k none
          results := update s.results k (s.results k ++ [f]) }
      | _ => none

variable {s : State view F} {s' : State view F}

/-! ### What a step does -/

theorem step_begin {c : Call view F} (h : s.step (.begin c) = some s') : s.active c.object = none ∧
    s' = { s with
      active := update s.active c.object (some (c.frame, c.body))
      calls := update s.calls c.object (s.calls c.object ++ [c]) } := by
  cases ha : s.active c.object with
  | none => exact ⟨rfl, by simpa [step, ha] using h.symm⟩
  | some p => simp [step, ha] at h

theorem step_micro (h : s.step (.micro k) = some s') : ∃ f m ms, s.active k = some (f, m :: ms) ∧
    s' = { s with
      mem := (m.run (s.mem, f)).1
      active := update s.active k (some ((m.run (s.mem, f)).2, ms)) } := by
  match ha : s.active k with
  | none => simp [step, ha] at h
  | some (f, []) => simp [step, ha] at h
  | some (f, m :: ms) => exact ⟨f, m, ms, rfl, by simpa [step, ha] using h.symm⟩

theorem step_finish (h : s.step (.finish k) = some s') : ∃ f, s.active k = some (f, []) ∧
    s' = { s with
      active := update s.active k none
      results := update s.results k (s.results k ++ [f]) } := by
  match ha : s.active k with
  | none => simp [step, ha] at h
  | some (f, []) => exact ⟨f, rfl, by simpa [step, ha] using h.symm⟩
  | some (f, m :: ms) => simp [step, ha] at h

end State

/-- The object is as if its calls had been made alone, up to what the last of them has still to do. -/
inductive AsIfAlone (d : D) (s : State view F) (k : K) : Prop
  | idle (active : s.active k = none) (results : s.results k = (alone d (s.calls k)).2)
      (mem : view k s.mem = view k (alone d (s.calls k)).1)
  | busy (f : F) (ms : List (Micro view F k)) (active : s.active k = some (f, ms))
      (results : s.results k ++ [(runAll ms (s.mem, f)).2] = (alone d (s.calls k)).2)
      (mem : view k (runAll ms (s.mem, f)).1 = view k (alone d (s.calls k)).1)

namespace AsIfAlone
variable {d : D} {s s' : State view F}

/-- Steps that do not concern the object. -/
theorem keep (h : AsIfAlone d s k) (ha : s'.active k = s.active k) (hc : s'.calls k = s.calls k)
    (hr : s'.results k = s.results k) (hm : view k s'.mem = view k s.mem) : AsIfAlone d s' k := by
  cases h with
  | idle h₁ h₂ h₃ => exact .idle (ha.trans h₁) (by rw [hr, hc, h₂]) (by rw [hm, hc, h₃])
  | busy f ms h₁ h₂ h₃ =>
      obtain ⟨hf, hd⟩ := runAll_congr ms hm f
      exact .busy f ms (ha.trans h₁) (by rw [hf, hr, hc, h₂]) (by rw [hd, hc, h₃])

variable [DecidableEq K]

/-- **One step** of any call. -/
theorem step (h : ∀ k, AsIfAlone d s k) {a : Step view F} (hs : s.step a = some s') (k : K) : AsIfAlone d s' k := by
  cases a with
  | begin c =>
      obtain ⟨hnone, rfl⟩ := State.step_begin hs
      rcases eq_or_ne k c.object with rfl | hk
      · cases h c.object with
        | busy f ms hsome => cases hnone.symm.trans hsome
        | idle _ hres hmem =>
            obtain ⟨hf, hd⟩ := runAll_congr c.body hmem c.frame
            refine .busy c.frame c.body (update_self ..) ?_ ?_
            · show s.results c.object ++ [_] = (alone d (update s.calls c.object _ c.object)).2
              rw [update_self, alone_concat, ← hres, hf]
            · show view c.object (runAll c.body (s.mem, c.frame)).1 =
                view c.object (alone d (update s.calls c.object _ c.object)).1
              rw [update_self, alone_concat]
              exact hd
      · exact (h k).keep (update_of_ne hk _ _) (update_of_ne hk _ _) rfl rfl
  | micro k₀ =>
      obtain ⟨f, m, ms, hsome, rfl⟩ := State.step_micro hs
      rcases eq_or_ne k k₀ with rfl | hk
      · cases h k with
        | idle hnone => cases hnone.symm.trans hsome
        | busy f' ms' hsome' hres hmem =>
            obtain ⟨rfl, rfl⟩ := Prod.mk.inj (Option.some.inj (hsome'.symm.trans hsome))
            exact .busy _ ms (update_self ..) hres hmem
      · exact (h k).keep (update_of_ne hk _ _) rfl rfl (m.others k hk s.mem f)
  | finish k₀ =>
      obtain ⟨f, hsome, rfl⟩ := State.step_finish hs
      rcases eq_or_ne k k₀ with rfl | hk
      · cases h k with
        | idle hnone => cases hnone.symm.trans hsome
        | busy f' ms' hsome' hres hmem =>
            obtain ⟨rfl, rfl⟩ := Prod.mk.inj (Option.some.inj (hsome'.symm.trans hsome))
            exact .idle (update_self ..) ((update_self ..).trans hres) hmem
      · exact (h k).keep (update_of_ne hk _ _) rfl (update_of_ne hk _ _) rfl

end AsIfAlone

end Serial
