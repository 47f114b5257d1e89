import Mathlib.Order.Defs.Unbundled
import Mathlib.Data.List.Basic

/-! # Selecting an element of a list

A loop that keeps one element and replaces it by `x` whenever `take x kept` is a fold of `keep take`.  Started at an
element it ends at a least one, for every strict weak order that `take` follows (`foldl_keep`).  Started elsewhere, at a
value that is in no order with the elements, it passes over the elements up to the first one that is taken against this
value, and what it ends at is least among the others only (`foldl_keep_iff`). -/

namespace Select

variable {A : Type*}

/-- One round: `if (take(x, kept)) kept = x;`. -/
def keep (take : A → A → Bool) (kept x : A) : A := if take x kept then x else kept

/-- A member that no member is before. -/
def Least (lt : A → A → Bool) (xs : List A) (z : A) : Prop := z ∈ xs ∧ ∀ y ∈ xs, lt y z = false

/-- On the elements of `xs`, `take` says yes to what is before the kept one, and no to what the kept one is before. -/
structure Follows (take lt : A → A → Bool) (xs : List A) : Prop where
  of_lt : ∀ x ∈ xs, ∀ y ∈ xs, lt x y = true → take x y = true
  not_lt : ∀ x ∈ xs, ∀ y ∈ xs, take x y = true → lt y x = false

/-- A strict weak order on the elements of `xs`. -/
abbrev WeakOrderOn (lt : A → A → Bool) (xs : List A) : Prop :=
  IsStrictWeakOrder {x // x ∈ xs} fun x y => lt x y = true

variable {take lt : A → A → Bool} {xs : List A} {x y z : A}

/-- Not being before is transitive. -/
theorem WeakOrderOn.neg_trans (h : WeakOrderOn lt xs) (hx : x ∈ xs) (hy : y ∈ xs) (hz : z ∈ xs) (hxy : lt x y = false)
    (hyz : lt y z = false) : lt x z = false := by
  let x' : {x // x ∈ xs} := ⟨x, hx⟩
  let y' : {x // x ∈ xs} := ⟨y, hy⟩
  let z' : {x // x ∈ xs} := ⟨z, hz⟩
  have htrans : ∀ a b c : {x // x ∈ xs}, lt a b = true → lt b c = true → lt a c = true := h.trans
  rw [← Bool.not_eq_true] at hxy hyz ⊢
  intro hxz
  by_cases hyx : lt y x = true
  · exact hyz (htrans y' x' z' hyx hxz)
  · by_cases hzy : lt z y = true
    · exact hxy (htrans x' z' y' hxz hzy)
    · exact (h.incomp_trans x' y' z' ⟨hxy, hyx⟩ ⟨hyz, hzy⟩).1 hxz

theorem WeakOrderOn.asymm (h : WeakOrderOn lt xs) (hx : x ∈ xs) (hy : y ∈ xs) (hxy : lt x y = true) :
    lt y x = false := by
  let x' : {x // x ∈ xs} := ⟨x, hx⟩
  let y' : {x // x ∈ xs} := ⟨y, hy⟩
  rw [← Bool.not_eq_true]
  exact fun hyx => h.irrefl x' (h.trans x' y' x' hxy hyx)

/-- The order itself follows the order, and so does not being after. -/
theorem WeakOrderOn.follows (h : WeakOrderOn lt xs) : Follows lt lt xs where
  of_lt _ _ _ _ := id
  not_lt _ hx _ hy := h.asymm hx hy

theorem WeakOrderOn.follows_not (h : WeakOrderOn lt xs) : Follows (fun x y => !lt x y) (fun x y => lt y x) xs where
  of_lt x hx y hy hyx := by simp [h.asymm hy hx hyx]
  not_lt x _ y _ hxy := by simpa using hxy

/-- The other way round it is a strict weak order, too. -/
theorem WeakOrderOn.flip (h : WeakOrderOn lt xs) : WeakOrderOn (fun x y => lt y x) xs where
  irrefl := h.irrefl
  trans a b c hab hbc := h.trans c b a hbc hab
  incomp_trans a b c hab hbc := (h.incomp_trans a b c hab.symm hbc.symm).symm

theorem WeakOrderOn.irrefl_eq (h : WeakOrderOn lt xs) (hx : x ∈ xs) : lt x x = false := by
  rw [← Bool.not_eq_true]
  exact h.irrefl ⟨x, hx⟩

/-- Of two elements the round keeps a least one. -/
theorem least_keep (h : WeakOrderOn lt xs) (hf : Follows take lt xs) (hz : z ∈ xs) (hx : x ∈ xs) :
    Least lt [z, x] (keep take z x) := by
  unfold keep
  split
  · next ht => simp [Least, hf.not_lt x hx z hz ht, h.irrefl_eq hx]
  · next ht =>
      have hxz : lt x z = false := by
        rw [← Bool.not_eq_true]
        exact fun hlt => ht (hf.of_lt x hx z hz hlt)
      simp [Least, hxz, h.irrefl_eq hz]

/-- A least one of the rest and of a least element so far is least. -/
theorem Least.trans (h : WeakOrderOn lt xs) {ys zs : List A} (hys : ∀ y ∈ ys, y ∈ xs) (hzs : ∀ z ∈ zs, z ∈ xs)
    (hx : Least lt ys x) (hz : Least lt (x :: zs) z) : Least lt (ys ++ zs) z := by
  obtain ⟨hmem, hle⟩ := hz
  have hzx : z ∈ xs := by
    rcases List.mem_cons.mp hmem with rfl | hm
    · exact hys _ hx.1
    · exact hzs z hm
  constructor
  · rcases List.mem_cons.mp hmem with rfl | hm
    · exact List.mem_append_left _ hx.1
    · exact List.mem_append_right _ hm
  · intro y hy
    rcases List.mem_append.mp hy with hy | hy
    · exact h.neg_trans (hys y hy) (hys x hx.1) hzx (hx.2 y hy) (hle x List.mem_cons_self)
    · exact hle y (List.mem_cons_of_mem _ hy)

/-- **From an element on** the fold ends at a least one of the elements it has seen. -/
theorem foldl_keep (h : WeakOrderOn lt xs) (hf : Follows take lt xs) {ys : List A} (hys : ∀ y ∈ ys, y ∈ xs) (hz : z ∈ xs) :
    Least lt (z :: ys) (ys.foldl (keep take) z) := by
  induction ys generalizing z with
  | nil => simp [Least, h.irrefl_eq hz]
  | cons x ys ih =>
      have hx : x ∈ xs := hys x List.mem_cons_self
      have hys' : ∀ y ∈ ys, y ∈ xs := fun y hy => hys y (List.mem_cons_of_mem _ hy)
      have hround := least_keep h hf hz hx
      have hzx : ∀ y ∈ [z, x], y ∈ xs := by simp [hz, hx]
      exact hround.trans h hzx hys' (ih hys' (hzx _ hround.1))

/-- What is not taken against the start changes nothing. -/
theorem foldl_dropWhile (s : A) (xs : List A) :
    xs.foldl (keep take) s = (xs.dropWhile fun x => !take x s).foldl (keep take) s := by
  induction xs with
  | nil => rfl
  | cons x xs ih =>
      cases ht : take x s with
      | true => simp [ht]
      | false => simpa [keep, ht] using ih

/-- **From a value outside the list** the fold ends at a least element exactly if there is one at or behind the first
element that is taken against this value. -/
theorem foldl_keep_iff (h : WeakOrderOn lt xs) (hf : Follows take lt xs) {s : A} (hs : s ∉ xs) :
    Least lt xs (xs.foldl (keep take) s) ↔ ∃ z ∈ xs.dropWhile fun x => !take x s, Least lt xs z := by
  have hsub : ∀ y ∈ xs.dropWhile (fun x => !take x s), y ∈ xs := fun y hy => (List.dropWhile_sublist _).subset hy
  rw [foldl_dropWhile]
  cases hd : xs.dropWhile fun x => !take x s with
  | nil => simp [Least, hs]
  | cons z zs =>
      rw [hd] at hsub
      have ht : take z s = true := by
        have := List.head_dropWhile_not (fun x => !take x s) (l := xs)
        simpa [hd] using this
      have hz := hsub z List.mem_cons_self
      have hleast := foldl_keep h hf (fun y hy => hsub y (List.mem_cons_of_mem _ hy)) hz
      have hstart : keep take s z = z := if_pos ht
      rw [List.foldl_cons, hstart]
      constructor
      · exact fun hl => ⟨_, hleast.1, hl⟩
      · -- what was passed over is not before a least element, and so not before the kept one
        rintro ⟨w, hw, hwxs, hwle⟩
        refine ⟨hsub _ hleast.1, fun y hy => ?_⟩
        exact h.neg_trans hy hwxs (hsub _ hleast.1) (hwle y hy) (hleast.2 w hw)

end Select
