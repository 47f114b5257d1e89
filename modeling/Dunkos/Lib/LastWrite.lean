import Mathlib.Data.List.Basic

/-! # The last write

Calls change a state, which holds a value at every key.  Where each call gives a value of its own to the keys it hits and
leaves the others alone, the value at a key after any list of calls is that of the last call that hits it, or the one from
before.  `read_foldl` is the rule. -/

namespace LastWrite

variable {S C K V : Type*}

/-- What the last of the calls that hit `k` gives it. -/
def last (hits : C → K → Prop) [∀ c k, Decidable (hits c k)] (value : C → K → V) (k : K) : List C → Option V
  | [] => none
  | c :: cs => (last hits value k cs).or (if hits c k then some (value c k) else none)

section
variable {hits : C → K → Prop} [∀ c k, Decidable (hits c k)] {value : C → K → V} {k : K}

/-- **The last write is what is read**, in every state that the calls lead to within the invariant `I`. -/
theorem read_foldl {f : S → C → S} {r : S → K → V} {I : S → Prop} {P : C → Prop}
    (keep : ∀ s c, I s → P c → I (f s c))
    (write : ∀ s c, I s → P c → r (f s c) k = if hits c k then value c k else r s k)
    {cs : List C} (hcs : ∀ c ∈ cs, P c) {s : S} (hs : I s) :
    I (cs.foldl f s) ∧ r (cs.foldl f s) k = (last hits value k cs).getD (r s k) := by
  induction cs generalizing s with
  | nil => exact ⟨hs, rfl⟩
  | cons c cs ih =>
      obtain ⟨hc, hcs⟩ := List.forall_mem_cons.mp hcs
      obtain ⟨hI, hread⟩ := ih hcs (keep s c hs hc)
      refine ⟨hI, ?_⟩
      rw [List.foldl_cons, hread, write s c hs hc, last]
      cases last hits value k cs with
      | some v => rfl
      | none => split_ifs <;> rfl

end

end LastWrite
