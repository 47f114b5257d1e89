import Dunkos.InsertOrdered
import Dunkos.Lib.Select

/-! # Best and worst fit (`list_bestfit`, `list_worstfit` of `shared/list.c`)

Both loops are one fold over the elements (`listFit_eq`) that starts at the sentinel and so compares the first elements
with something that is no element.  Elements that are not taken against the sentinel are passed over for good, whatever
they are worth; `list_fit_iff` says when nothing is lost by this. -/

namespace Dunkos

open Linked Elem Loop Select

section code
open LinkMem

variable {M L P : Type} [LinkMem M L P] [DecidableEq P]

/-- The loop of both functions, which starts at `list_end` and keeps `el` when `take` says so; `none` when it does not
end within `fuel` rounds. -/
def listFit (take : P → P → Bool) (fuel : ℕ) (m : M) (li : L) : Option P :=
  (runWhile (fun s => s.1 ≠ listEnd m li) (fun s => some (listNext m s.1, if take s.1 s.2 then s.1 else s.2)) fuel
    (listBegin m li, listEnd m li)).map Prod.snd

/-- `list_worstfit`. -/
def listWorstfit (fuel : ℕ) (m : M) (li : L) (cmp : P → P → Bool) : Option P :=
  listFit (fun el worst => !cmp el worst) fuel m li

/-- `list_bestfit`. -/
def listBestfit (fuel : ℕ) (m : M) (li : L) (cmp : P → P → Bool) : Option P :=
  listFit (fun el best => cmp el best) fuel m li

end code

variable {L N : Type} [DecidableEq L] [DecidableEq N]

/-- The elements of a list, as `cmp` gets them. -/
def elems (xs : List N) : List (Elem L N) := xs.map node

section
variable {m : ListMem L N} {σ : L → List N} {li : L} {take cmp : Elem L N → Elem L N → Bool} {fuel : ℕ}

theorem listFit_from (h : Represents m σ) {done xs : List N} (hx : σ li = done ++ xs) (kept : Elem L N)
    (hf : xs.length ≤ fuel) :
    runWhile (fun s : Elem L N × Elem L N => s.1 ≠ listEnd m li)
      (fun s => some (listNext m s.1, if take s.1 s.2 then s.1 else s.2)) fuel (cellAt li xs, kept) =
      some (tail li, (elems xs).foldl (keep take) kept) := by
  induction xs generalizing done kept fuel with
  | nil => exact runWhile_of_stop (by simp [cellAt, listEnd]) fuel
  | cons x xs ih =>
      obtain ⟨fuel, rfl⟩ : ∃ f, fuel = f + 1 := ⟨fuel - 1, by rw [List.length_cons] at hf; omega⟩
      rw [List.length_cons, Nat.add_le_add_iff_right] at hf
      have hnext : listNext m (node x) = cellAt li xs := h.listNext_eq hx
      rw [runWhile, if_pos (by simp [cellAt, listEnd]), Option.bind_some]
      show runWhile _ _ fuel (listNext m (node x), keep take kept (node x)) = _
      rw [hnext]
      exact ih (hx.trans (List.append_cons ..)) _ hf

/-- **The loop is a fold** over the elements. -/
theorem listFit_eq (h : Represents m σ) (hf : (σ li).length ≤ fuel) :
    listFit take fuel m li = some ((elems (σ li)).foldl (keep take) (tail li)) := by
  unfold listFit
  rw [h.listBegin_eq, listFit_from h (List.nil_append _).symm _ hf]
  rfl

omit [DecidableEq L] [DecidableEq N] in
theorem tail_not_mem_elems (li : L) (xs : List N) : tail li ∉ elems xs := by simp [elems]

/-- What the function finds is least in the order `lt`. -/
theorem listFit_least_iff {lt : Elem L N → Elem L N → Bool} (h : Represents m σ) (hw : WeakOrderOn lt (elems (σ li)))
    (hfo : Follows take lt (elems (σ li))) (hf : (σ li).length ≤ fuel) :
    (∃ x, listFit take fuel m li = some x ∧ Least lt (elems (σ li)) x) ↔
      ∃ z ∈ (elems (σ li)).dropWhile fun x => !take x (tail li), Least lt (elems (σ li)) z := by
  rw [← foldl_keep_iff hw hfo (tail_not_mem_elems li _), listFit_eq h hf]
  simp

end

/-! ### The two searches -/

/-- `list_bestfit` returns a member that no member is before. -/
def BestfitRight (fuel : ℕ) (m : ListMem L N) (li : L) (xs : List N) (cmp : Elem L N → Elem L N → Bool) : Prop :=
  ∃ x, listBestfit fuel m li cmp = some x ∧ x ∈ elems xs ∧ ∀ y ∈ elems xs, cmp y x = false

/-- `list_worstfit` returns a member that is before no member. -/
def WorstfitRight (fuel : ℕ) (m : ListMem L N) (li : L) (xs : List N) (cmp : Elem L N → Elem L N → Bool) : Prop :=
  ∃ x, listWorstfit fuel m li cmp = some x ∧ x ∈ elems xs ∧ ∀ y ∈ elems xs, cmp x y = false

section
variable {m : ListMem L N} {σ : L → List N} {li : L} {cmp : Elem L N → Elem L N → Bool} {fuel : ℕ}

/-- **Best and worst fit.**  On an empty list both return `list_end`.  Otherwise `list_bestfit` is right exactly if some
best member stands at or behind the first element that `cmp` puts before the sentinel, and `list_worstfit` exactly if
some worst member stands at or behind the first one that `cmp` does not put before it. -/
theorem list_fit_iff (h : Represents m σ) (hw : WeakOrderOn cmp (elems (σ li))) (hf : (σ li).length ≤ fuel) :
    (σ li = [] → listBestfit fuel m li cmp = some (listEnd m li) ∧ listWorstfit fuel m li cmp = some (listEnd m li)) ∧
      (σ li ≠ [] →
        (BestfitRight fuel m li (σ li) cmp ↔
          ∃ z ∈ (elems (σ li)).dropWhile fun x => !cmp x (tail li), ∀ y ∈ elems (σ li), cmp y z = false) ∧
        (WorstfitRight fuel m li (σ li) cmp ↔
          ∃ z ∈ (elems (σ li)).dropWhile fun x => cmp x (tail li), ∀ y ∈ elems (σ li), cmp z y = false)) := by
  have hsub : ∀ p : Elem L N → Bool, ∀ z ∈ (elems (σ li)).dropWhile p, z ∈ elems (σ li) :=
    fun p z hz => (List.dropWhile_sublist _).subset hz
  constructor
  · intro hx
    unfold listBestfit listWorstfit
    rw [listFit_eq h hf, listFit_eq h hf, hx]
    exact ⟨rfl, rfl⟩
  · intro _
    constructor
    · refine (listFit_least_iff h hw hw.follows hf).trans ?_
      exact exists_congr fun z => and_congr_right fun hz => and_iff_right (hsub _ z hz)
    · refine (listFit_least_iff h hw.flip hw.follows_not hf).trans ?_
      simp only [Bool.not_not]
      exact exists_congr fun z => and_congr_right fun hz => and_iff_right (hsub _ z hz)

end

/-- The order of the numbers is a strict weak order on any elements. -/
theorem nodeBefore_weakOrder (xs : List ℕ) : WeakOrderOn nodeBefore (elems xs) where
  irrefl := by
    rintro ⟨x, hx⟩
    obtain ⟨a, -, rfl⟩ := List.mem_map.mp hx
    simp [nodeBefore]
  trans := by
    rintro ⟨x, hx⟩ ⟨y, hy⟩ ⟨z, hz⟩
    obtain ⟨a, -, rfl⟩ := List.mem_map.mp hx
    obtain ⟨b, -, rfl⟩ := List.mem_map.mp hy
    obtain ⟨c, -, rfl⟩ := List.mem_map.mp hz
    simp only [nodeBefore, decide_eq_true_eq]
    exact Nat.lt_trans
  incomp_trans := by
    rintro ⟨x, hx⟩ ⟨y, hy⟩ ⟨z, hz⟩
    obtain ⟨a, -, rfl⟩ := List.mem_map.mp hx
    obtain ⟨b, -, rfl⟩ := List.mem_map.mp hy
    obtain ⟨c, -, rfl⟩ := List.mem_map.mp hz
    simp only [nodeBefore, decide_eq_true_eq]
    omega

/-- **1, 5 with no number before the sentinel**: `list_bestfit` returns the sentinel. -/
theorem list_bestfit_sentinel : ¬ ∀ (m : ListMem Unit ℕ) (σ : Unit → List ℕ) (li : Unit)
    (cmp : Elem Unit ℕ → Elem Unit ℕ → Bool) (fuel : ℕ), Represents m σ → WeakOrderOn cmp (elems (σ li)) → σ li ≠ [] →
    (σ li).length ≤ fuel → BestfitRight fuel m li (σ li) cmp ∧ WorstfitRight fuel m li (σ li) cmp := by
  intro h
  obtain ⟨⟨x, hx, hmem, -⟩, -⟩ :=
    h oneFive _ () nodeBefore 2 oneFive_represents (nodeBefore_weakOrder [1, 5]) (by simp) (by simp)
  have hrun : listBestfit 2 oneFive () nodeBefore = some (tail ()) := by decide
  rw [hrun, Option.some.injEq] at hx
  exact tail_not_mem_elems () [1, 5] (hx ▸ hmem)

/-- On the same list `list_worstfit` is right. -/
theorem list_worstfit_five : WorstfitRight 2 oneFive () [1, 5] nodeBefore :=
  ((@list_fit_iff _ _ _ _ oneFive (fun _ => [1, 5]) () nodeBefore 2 oneFive_represents (nodeBefore_weakOrder [1, 5])
    (by simp)).2 (by simp)).2.mpr ⟨node 5, by decide, by decide⟩

end Dunkos
