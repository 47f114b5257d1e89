import Mathlib.Data.Nat.Notation
import Mathlib.Tactic.SplitIfs

/-! # Calls that may not return

`Call S E A` is code on a state `S` that comes to a result in `A`, or stops for a reason in `E` and leaves the state as
it is then.  `Triple P c Q R` says where `c` ends when it starts in `P`: with a result in `Q`, or stopped in `R`.
`Keeps I c` is the case of an invariant that holds wherever `c` ends, and `Returns P c Q` says that `c` does not stop. -/

/-- Code on a state. -/
def Call (S E A : Type) : Type := S → Except E A × S

namespace Call

variable {S E A B : Type}

instance : Monad (Call S E) where
  pure a s := (.ok a, s)
  bind c f s :=
    match c s with
    | (.ok a, t) => f a t
    | (.error e, t) => (.error e, t)

def get : Call S E S := fun s => (.ok s, s)

def modify (f : S → S) : Call S E Unit := fun s => (.ok (), f s)

def stop (e : E) : Call S E A := fun s => (.error e, s)

def ofOption (e : E) : Option A → Call S E A
  | some a => pure a
  | none => stop e

/-- Carry on from where other code ended. -/
def resume (c : Call S E B) : Except E A × S → Except E B × S
  | (.ok _, t) => c t
  | (.error e, t) => (.error e, t)

/-- `c`, `n` times. -/
def rounds (c : Call S E A) : ℕ → Call S E Unit
  | 0 => pure ()
  | n + 1 => do
    let _ ← c
    rounds c n

/-! ### Rules -/

/-- The end of a call is as `Q` and `R` say. -/
def Ends (Q : A → S → Prop) (R : E → S → Prop) : Except E A × S → Prop
  | (.ok a, t) => Q a t
  | (.error e, t) => R e t

def Triple (P : S → Prop) (c : Call S E A) (Q : A → S → Prop) (R : E → S → Prop) : Prop :=
  ∀ s, P s → Ends Q R (c s)

abbrev Keeps (I : S → Prop) (c : Call S E A) : Prop := Triple I c (fun _ => I) fun _ => I

abbrev Returns (P : S → Prop) (c : Call S E A) (Q : A → S → Prop) : Prop := Triple P c Q fun _ _ => False

namespace Triple

variable {P P' : S → Prop} {Q Q' : A → S → Prop} {R R' : E → S → Prop} {c : Call S E A} {f : A → Call S E B}
  {U : B → S → Prop}

theorem pure {a : A} (h : ∀ s, P s → Q a s) : Triple P (Pure.pure a : Call S E A) Q R := h

theorem get {Q : S → S → Prop} (h : ∀ s, P s → Q s s) : Triple P (Call.get : Call S E S) Q R := h

theorem modify {g : S → S} {Q : Unit → S → Prop} (h : ∀ s, P s → Q () (g s)) :
    Triple P (Call.modify g : Call S E Unit) Q R := h

theorem stop {e : E} (h : ∀ s, P s → R e s) : Triple P (Call.stop e : Call S E A) Q R := h

theorem bind (hc : Triple P c Q R) (hf : ∀ a, Triple (Q a) (f a) U R) : Triple P (c >>= f) U R := by
  intro s hs
  have hend := hc s hs
  show Ends U R (match c s with | (.ok a, t) => f a t | (.error e, t) => (.error e, t))
  match h : c s with
  | (.ok a, t) =>
      rw [h] at hend
      exact hf a t hend
  | (.error e, t) =>
      rw [h] at hend
      exact hend

theorem conseq (h : Triple P c Q R) (hp : ∀ s, P' s → P s) (hq : ∀ a s, Q a s → Q' a s) (hr : ∀ e s, R e s → R' e s) :
    Triple P' c Q' R' := by
  intro s hs
  have hend := h s (hp s hs)
  match hc : c s with
  | (.ok a, t) =>
      rw [hc] at hend
      exact hq a t hend
  | (.error e, t) =>
      rw [hc] at hend
      exact hr e t hend

/-- Code that is not reached. -/
theorem unreached : Triple (fun _ => False) c Q R := fun _ h => h.elim

theorem ofOption {o : Option A} (hs : ∀ a s, o = some a → P s → Q a s) (hn : ∀ e s, o = none → P s → R e s) {e : E} :
    Triple P (Call.ofOption e o) Q R := by
  cases o with
  | some a => exact .pure fun s => hs a s rfl
  | none => exact .stop fun s => hn e s rfl

theorem ite {p : Prop} [Decidable p] {c' : Call S E A} (ht : p → Triple P c Q R) (hf : ¬ p → Triple P c' Q R) :
    Triple P (if p then c else c') Q R := by
  split_ifs with h
  · exact ht h
  · exact hf h

/-- A fact on the state before may be taken out. -/
theorem intro {p : Prop} (h : p → Triple P c Q R) : Triple (fun s => p ∧ P s) c Q R :=
  fun s hs => h hs.1 s hs.2

theorem resume {c' : Call S E B} (hc : Triple P c' U R) {r : Except E A × S} (hr : Ends (fun _ => P) R r) :
    Ends U R (c'.resume r) := by
  match r with
  | (.ok a, t) => exact hc t hr
  | (.error e, t) => exact hr

end Triple

/-- Code that returns does not come to any reason to stop. -/
theorem Returns.triple {P : S → Prop} {c : Call S E A} {Q : A → S → Prop} {R : E → S → Prop} (h : Returns P c Q) :
    Triple P c Q R := h.conseq (fun _ => id) (fun _ _ => id) fun _ _ => False.elim

/-- The result that such code comes to. -/
theorem Returns.result {P : S → Prop} {c : Call S E A} {Q : A → S → Prop} (h : Returns P c Q) {s : S} (hs : P s) :
    ∃ a t, c s = (.ok a, t) ∧ Q a t := by
  have hend := h s hs
  match hc : c s with
  | (.ok a, t) =>
      rw [hc] at hend
      exact ⟨a, t, rfl, hend⟩
  | (.error e, t) =>
      rw [hc] at hend
      exact hend.elim

namespace Keeps

variable {I : S → Prop} {c c' : Call S E A} {f : A → Call S E B}

theorem pure (a : A) : Keeps I (Pure.pure a : Call S E A) := fun _ => id

theorem get : Keeps I (Call.get : Call S E S) := fun _ => id

theorem modify {g : S → S} (h : ∀ s, I s → I (g s)) : Keeps I (Call.modify g : Call S E Unit) := h

theorem stop (e : E) : Keeps I (Call.stop e : Call S E A) := fun _ => id

theorem bind (hc : Keeps I c) (hf : ∀ a, Keeps I (f a)) : Keeps I (c >>= f) := Triple.bind hc hf

theorem ofOption (e : E) (o : Option A) : Keeps I (Call.ofOption e o : Call S E A) :=
  Triple.ofOption (fun _ _ _ => id) fun _ _ _ => id

theorem ite {p : Prop} [Decidable p] (ht : p → Keeps I c) (hf : ¬ p → Keeps I c') : Keeps I (if p then c else c') :=
  Triple.ite ht hf

theorem rounds (h : Keeps I c) (n : ℕ) : Keeps I (c.rounds n) := by
  induction n with
  | zero => exact pure ()
  | succ n ih => exact h.bind fun _ => ih

/-- Wherever the code ends. -/
theorem snd (h : Keeps I c) {s : S} (hs : I s) : I (c s).2 := by
  have hend := h s hs
  match hc : c s with
  | (.ok a, t) =>
      rw [hc] at hend
      exact hend
  | (.error e, t) =>
      rw [hc] at hend
      exact hend

end Keeps

end Call
