import Mathlib.Data.List.Perm.Basic

/-! # Ledgers of extents

An `Extent` is a range of consecutive numbers.  A `Ledger bound` is what an allocator of ranges has
handed out below `bound`: a list of extents that lie inside `[0, bound)` and are pairwise apart.
Both facts are fields, so a ledger that overlaps itself cannot be built.  `take` writes an extent
into the ledger and `give` strikes one out; `take_used` and `give_used` say how the numbers in use
change. -/

/-- The numbers `start, …, start + len - 1`. -/
structure Extent where
  start : ℕ
  len : ℕ
deriving DecidableEq, Repr

namespace Extent

def Covers (e : Extent) (i : ℕ) : Prop := e.start ≤ i ∧ i < e.start + e.len

@[simp] theorem covers_mk {start len i : ℕ} :
    (Extent.mk start len).Covers i ↔ start ≤ i ∧ i < start + len := Iff.rfl

instance (e : Extent) (i : ℕ) : Decidable (e.Covers i) := inferInstanceAs (Decidable (_ ∧ _))

/-- No number is in both. -/
def Apart (e e' : Extent) : Prop := ∀ i, e.Covers i → ¬ e'.Covers i

theorem Apart.symm {e e' : Extent} (h : e.Apart e') : e'.Apart e := fun i hi hi' => h i hi' hi

/-- Extents that end before the other begins are apart. -/
theorem apart_of_le {e e' : Extent} (h : e.start + e.len ≤ e'.start) : e.Apart e' := by
  intro i hi hi'
  unfold Covers at hi hi'
  omega

/-- The extent, `d` further up. -/
def shift (d : ℕ) (e : Extent) : Extent := ⟨e.start + d, e.len⟩

theorem Apart.shift {e e' : Extent} (h : e.Apart e') (d : ℕ) : (e.shift d).Apart (e'.shift d) := by
  intro i hi hi'
  unfold Extent.shift at hi hi'
  simp only [covers_mk] at hi hi'
  exact h (i - d) (by unfold Covers; omega) (by unfold Covers; omega)

end Extent

/-- Extents inside `[0, bound)`, pairwise apart. -/
structure Ledger (bound : ℕ) where
  extents : List Extent
  inside : ∀ e ∈ extents, e.start + e.len ≤ bound
  apart : extents.Pairwise Extent.Apart

namespace Ledger
variable {bound : ℕ} {l : Ledger bound} {e : Extent} {i : ℕ}

/-- The number is in some extent of the ledger. -/
def Used (l : Ledger bound) (i : ℕ) : Prop := ∃ e ∈ l.extents, e.Covers i

def empty (bound : ℕ) : Ledger bound := ⟨[], by simp, .nil⟩

@[simp] theorem not_used_empty : ¬ (empty bound).Used i := by simp [Used, empty]

theorem Used.lt (h : l.Used i) : i < bound := by
  obtain ⟨e, he, hi⟩ := h
  exact Nat.lt_of_lt_of_le hi.2 (l.inside e he)

def take (l : Ledger bound) (e : Extent) (hin : e.start + e.len ≤ bound)
    (hfree : ∀ i, e.Covers i → ¬ l.Used i) : Ledger bound where
  extents := e :: l.extents
  inside := by
    intro e' he'
    rcases List.mem_cons.mp he' with rfl | he'
    · exact hin
    · exact l.inside e' he'
  apart := List.pairwise_cons.mpr ⟨fun e' he' i hi hi' => hfree i hi ⟨e', he', hi'⟩, l.apart⟩

@[simp] theorem take_extents {hin hfree} : (l.take e hin hfree).extents = e :: l.extents := rfl

theorem take_used {hin hfree} : (l.take e hin hfree).Used i ↔ e.Covers i ∨ l.Used i := by
  simp [Used]

def give (l : Ledger bound) (e : Extent) : Ledger bound where
  extents := l.extents.erase e
  inside := fun e' he' => l.inside e' (List.mem_of_mem_erase he')
  apart := l.apart.sublist List.erase_sublist

@[simp] theorem give_extents : (l.give e).extents = l.extents.erase e := rfl

/-- The extents left are apart from the one struck out. -/
theorem give_apart (he : e ∈ l.extents) : ∀ e' ∈ (l.give e).extents, e.Apart e' := by
  have h : (e :: l.extents.erase e).Pairwise Extent.Apart :=
    (List.perm_cons_erase he).pairwise l.apart fun h => Extent.Apart.symm h
  exact (List.pairwise_cons.mp h).1

theorem give_used (he : e ∈ l.extents) : (l.give e).Used i ↔ l.Used i ∧ ¬ e.Covers i := by
  constructor
  · rintro ⟨e', he', hi⟩
    exact ⟨⟨e', List.mem_of_mem_erase he', hi⟩, fun h => give_apart he e' he' i h hi⟩
  · rintro ⟨⟨e', he', hi⟩, hne⟩
    refine ⟨e', (List.mem_erase_of_ne ?_).mpr he', hi⟩
    rintro rfl
    exact hne hi

end Ledger
