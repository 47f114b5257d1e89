import Mathlib.Data.Fintype.Card
import Mathlib.Data.Fintype.Order
import Mathlib.Logic.Relation

/-! # Recursion along a relation

A recursion that calls itself on every successor of its argument has no measure of its own: the relation is data.
`EndsIn r n a` says that calls from `a` on are at most `n` deep.  Over a finite type the recursion ends exactly where
no point that it comes to lies on a cycle (`endsIn_iff_acyclic`); where no point has two predecessors, nothing is come to
twice (`siblings_apart`). -/

namespace Descent
open Relation

variable {α : Type*} {r : α → α → Prop} {a b : α} {n : ℕ}

/-- The recursion along `r` from `a` ends when calls may be `n` deep. -/
def EndsIn (r : α → α → Prop) : ℕ → α → Prop
  | 0, _ => False
  | n + 1, a => ∀ b, r a b → EndsIn r n b

theorem EndsIn.mono {m : ℕ} (h : EndsIn r n a) (hnm : n ≤ m) : EndsIn r m a := by
  induction n generalizing a m with
  | zero => exact h.elim
  | succ n ih =>
      obtain ⟨m, rfl⟩ : ∃ k, m = k + 1 := ⟨m - 1, by omega⟩
      intro b hb
      exact ih (h b hb) (by omega)

/-- A recursion that ends meets no cycle. -/
theorem EndsIn.acyclic (h : EndsIn r n a) (hab : ReflTransGen r a b) : ¬ TransGen r b b := by
  induction n generalizing a b with
  | zero => exact h.elim
  | succ n ih =>
      intro hcycle
      rcases hab.cases_head with rfl | ⟨c, hac, hcb⟩
      · obtain ⟨c, hac, hca⟩ := TransGen.head'_iff.mp hcycle
        exact ih (h c hac) hca hcycle
      · exact ih (h c hac) hcb hcycle

/-- Over a finite type one depth is enough for all points. -/
theorem exists_common_depth [Finite α] {p : α → Prop} (h : ∀ b, p b → ∃ n, EndsIn r n b) :
    ∃ n, ∀ b, p b → EndsIn r n b := by
  choose! depth hdepth using h
  obtain ⟨m, hm⟩ := Finite.bddAbove_range depth
  exact ⟨m, fun b hb => (hdepth b hb).mono (hm ⟨b, rfl⟩)⟩

/-- **Which recursions end** over a finite type. -/
theorem endsIn_iff_acyclic [Finite α] :
    (∃ n, EndsIn r n a) ↔ ∀ b, ReflTransGen r a b → ¬ TransGen r b b := by
  refine ⟨fun ⟨n, h⟩ b hab => h.acyclic hab, fun h => ?_⟩
  -- what `a` leads to is well founded against `r`
  let below : α → α → Prop := fun y x => ReflTransGen r a x ∧ TransGen r x y
  have htrans : IsTrans α below := ⟨fun _ _ _ hyx hzy => ⟨hzy.1, hzy.2.trans hyx.2⟩⟩
  have hirrefl : Std.Irrefl below := ⟨fun x hx => h x hx.1 hx.2⟩
  have hwf : WellFounded below := Finite.wellFounded_of_trans_of_irrefl below
  have hends : ∀ x, ReflTransGen r a x → ∃ n, EndsIn r n x := by
    intro x
    induction x using hwf.induction with
    | _ x ih =>
        intro hx
        obtain ⟨n, hn⟩ := exists_common_depth fun y hxy => ih y ⟨hx, .single hxy⟩ (hx.tail hxy)
        exact ⟨n + 1, hn⟩
  exact hends a .refl

/-! ### Forests -/

section
variable {c x : α} (huniq : ∀ x y z, r x z → r y z → x = y)
include huniq

/-- Where no point has two predecessors, two points that lead to one lie on one way. -/
theorem reach_total (ha : ReflTransGen r a c) (hb : ReflTransGen r b c) : ReflTransGen r a b ∨ ReflTransGen r b a := by
  have hright : Relator.RightUnique (Function.swap r) := fun z x y hx hy => huniq x y z hx hy
  rcases ReflTransGen.total_of_right_unique hright (reflTransGen_swap.mpr ha) (reflTransGen_swap.mpr hb) with h | h
  · exact .inr (reflTransGen_swap.mp h)
  · exact .inl (reflTransGen_swap.mp h)

/-- Nothing is reached through two successors of a point that lies on no cycle. -/
theorem siblings_apart (hloop : ¬ TransGen r a a) (hb : r a b) (hc : r a c) (hne : b ≠ c) (hbx : ReflTransGen r b x) :
    ¬ ReflTransGen r c x := by
  have hback : ∀ y z, r a y → r a z → y ≠ z → ¬ ReflTransGen r y z := by
    intro y z hy hz hyz hreach
    rcases hreach.cases_tail with rfl | ⟨w, hyw, hwz⟩
    · exact hyz rfl
    · obtain rfl := huniq w a z hwz hz
      exact hloop (.head' hy hyw)
  intro hcx
  rcases reach_total huniq hbx hcx with h | h
  · exact hback b c hb hc hne h
  · exact hback c b hc hb hne.symm h

/-- From a point without a predecessor no cycle is reached. -/
theorem acyclic_of_root (hroot : ∀ x, ¬ r x a) (hab : ReflTransGen r a b) : ¬ TransGen r b b := by
  induction hab with
  | refl =>
      intro hcycle
      obtain ⟨x, -, hx⟩ := TransGen.tail'_iff.mp hcycle
      exact hroot x hx
  | tail _ hyz ih =>
      intro hcycle
      obtain ⟨x, hzx, hxz⟩ := TransGen.tail'_iff.mp hcycle
      obtain rfl := huniq _ _ _ hyz hxz
      exact ih (.head' hyz hzx)

end

end Descent
