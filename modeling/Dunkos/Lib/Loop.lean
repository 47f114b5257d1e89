import Mathlib.Data.Nat.Notation

/-! # Loops

`countUp body k i s` runs `body` for the indices from `i` on, `k` of them; `none` when a round fails.
`countUp_total` is the rule for an invariant that also says that every round succeeds, and `foldlM_total`
the one for a loop over a list, where the invariant is about the elements that are done; `foldlM_isSome_iff` and
`foldlM_emits` are for rounds that may fail, `mapM_eq_some` for rounds that have a result each, `foldlM_keeps` and
`runWhile_keeps` for loops that are known to end.

`runWhile goOn body fuel` is a loop that may not end, for at most `fuel` rounds; `runWhile_total` is its rule for an
invariant and a variant.

`forWhile` is a counting loop with a condition to go on.  `Emits out f xs` says that `f` appends `xs` to an
output; it composes along `++`, and over a loop it is `emits_forWhile`. -/

namespace Loop

variable {S : Type*} {body : ℕ → S → Option S}

def countUp (body : ℕ → S → Option S) : ℕ → ℕ → S → Option S
  | 0, _, s => some s
  | k + 1, i, s => (body i s).bind (countUp body k (i + 1))

/-- **Total correctness** of a counting loop. -/
theorem countUp_total {n : ℕ} {I : ℕ → S → Prop}
    (round : ∀ i s, i < n → I i s → ∃ s', body i s = some s' ∧ I (i + 1) s') {k i : ℕ} {s : S} (hk : i + k = n)
    (hi : I i s) : ∃ s', countUp body k i s = some s' ∧ I n s' := by
  induction k generalizing i s with
  | zero => exact ⟨s, rfl, hk ▸ hi⟩
  | succ k ih =>
      obtain ⟨t, ht, hit⟩ := round i s (by omega) hi
      obtain ⟨s', hs', hn⟩ := ih (by omega) hit
      refine ⟨s', ?_, hn⟩
      rw [countUp, ht]
      exact hs'

/-- **Total correctness** of a loop over a list. -/
theorem foldlM_total {A : Type*} {f : S → A → Option S} {as : List A} {I : List A → S → Prop}
    (round : ∀ done a s, done ++ [a] <+: as → I done s → ∃ s', f s a = some s' ∧ I (done ++ [a]) s') {s : S}
    (hi : I [] s) : ∃ s', as.foldlM f s = some s' ∧ I as s' := by
  have hrest : ∀ rest done s, done ++ rest = as → I done s → ∃ s', rest.foldlM f s = some s' ∧ I as s' := by
    intro rest
    induction rest with
    | nil =>
        intro done s hd hi
        rw [List.append_nil] at hd
        exact ⟨s, rfl, hd ▸ hi⟩
    | cons a rest ih =>
        intro done s hd hi
        rw [List.append_cons] at hd
        obtain ⟨t, ht, hit⟩ := round done a s ⟨rest, hd⟩ hi
        obtain ⟨s', hs', hn⟩ := ih _ t hd hit
        refine ⟨s', ?_, hn⟩
        rw [List.foldlM_cons, ht]
        exact hs'
  exact hrest as [] s (List.nil_append as) hi

/-- Loops whose rounds do the same. -/
theorem foldlM_congr {A : Type*} {f g : S → A → Option S} {as : List A} (round : ∀ a ∈ as, ∀ s, f s a = g s a) (s : S) :
    as.foldlM f s = as.foldlM g s := by
  induction as generalizing s with
  | nil => rfl
  | cons a as ih =>
      rw [List.foldlM_cons, List.foldlM_cons, round a List.mem_cons_self]
      exact congrArg _ (funext fun t => ih (fun b hb => round b (List.mem_cons_of_mem a hb)) t)

/-- Loops that break at the same element. -/
theorem takeWhile_congr {A : Type*} {p q : A → Bool} {as : List A} (round : ∀ a ∈ as, p a = q a) :
    as.takeWhile p = as.takeWhile q := by
  induction as with
  | nil => rfl
  | cons a as ih =>
      rw [List.takeWhile_cons, List.takeWhile_cons, round a List.mem_cons_self,
        ih fun b hb => round b (List.mem_cons_of_mem a hb)]

/-- A loop over a list succeeds where each of its rounds does, when no round depends on the state. -/
theorem foldlM_isSome_iff {A : Type*} {f : S → A → Option S} {P : A → Prop} {as : List A} {s : S}
    (round : ∀ a ∈ as, ∀ s, (f s a).isSome ↔ P a) : (as.foldlM f s).isSome ↔ ∀ a ∈ as, P a := by
  induction as generalizing s with
  | nil => simp
  | cons a as ih =>
      rw [List.foldlM_cons, List.forall_mem_cons, ← round a List.mem_cons_self s]
      cases hfa : f s a with
      | none => simp
      | some t =>
          rw [← ih (s := t) fun b hb => round b (List.mem_cons_of_mem _ hb)]
          simp

/-- A loop that collects a result for each element, when every round has one. -/
theorem mapM_eq_some {A B : Type*} {f : A → Option B} {g : A → B} {as : List A} (round : ∀ a ∈ as, f a = some (g a)) :
    as.mapM f = some (as.map g) := by
  induction as with
  | nil => rfl
  | cons a as ih =>
      obtain ⟨ha, has⟩ := List.forall_mem_cons.mp round
      rw [List.mapM_cons, ha, ih has]
      rfl

/-- What each round appends to an output comes out in the order of the list, and what the rounds keep holds at the
end. -/
theorem foldlM_emits {A T : Type*} {f : S → A → Option S} {I : S → Prop} {out : S → List T} {w : A → List T}
    {as : List A} {s s' : S}
    (round : ∀ a ∈ as, ∀ s s', I s → f s a = some s' → I s' ∧ out s' = out s ++ w a)
    (h : as.foldlM f s = some s') (hi : I s) : I s' ∧ out s' = out s ++ as.flatMap w := by
  induction as generalizing s with
  | nil =>
      obtain rfl : s = s' := Option.some.inj h
      exact ⟨hi, (List.append_nil _).symm⟩
  | cons a as ih =>
      rw [List.foldlM_cons] at h
      obtain ⟨t, ht, h⟩ := Option.bind_eq_some_iff.mp h
      obtain ⟨hit, hout⟩ := round a List.mem_cons_self s t hi ht
      obtain ⟨hi', hout'⟩ := ih (fun b hb => round b (List.mem_cons_of_mem _ hb)) h hit
      refine ⟨hi', ?_⟩
      rw [hout', hout, List.flatMap_cons, List.append_assoc]

/-- What each round that succeeds keeps. -/
theorem foldlM_keeps {A : Type*} {f : S → A → Option S} {I : S → Prop} {as : List A} {s s' : S}
    (round : ∀ a ∈ as, ∀ s s', I s → f s a = some s' → I s') (h : as.foldlM f s = some s') (hi : I s) : I s' := by
  induction as generalizing s with
  | nil =>
      obtain rfl : s = s' := Option.some.inj h
      exact hi
  | cons a as ih =>
      rw [List.foldlM_cons] at h
      obtain ⟨t, ht, h⟩ := Option.bind_eq_some_iff.mp h
      exact ih (fun b hb => round b (List.mem_cons_of_mem _ hb)) h (round a List.mem_cons_self s t hi ht)

/-! ### Loops that may not end -/

section
variable {goOn : S → Bool} {body : S → Option S} {s s' : S}

/-- `while (goOn s) body`; `none` when a round fails, or `fuel` rounds do not come to the end. -/
def runWhile (goOn : S → Bool) (body : S → Option S) : ℕ → S → Option S
  | 0, s => if goOn s then none else some s
  | fuel + 1, s => if goOn s then (body s).bind (runWhile goOn body fuel) else some s

theorem runWhile_of_stop (h : goOn s = false) (fuel : ℕ) : runWhile goOn body fuel s = some s := by
  cases fuel <;> exact if_neg (by rw [h]; decide)

theorem runWhile_of_go (h : goOn s = true) {t : S} (hb : body s = some t) (fuel : ℕ) :
    runWhile goOn body (fuel + 1) s = runWhile goOn body fuel t := by
  rw [runWhile, if_pos h, hb, Option.bind_some]

/-- A loop that ends ends with what each round keeps. -/
theorem runWhile_keeps {I : S → Prop} (round : ∀ s t, I s → goOn s = true → body s = some t → I t) {fuel : ℕ}
    (h : runWhile goOn body fuel s = some s') (hi : I s) : I s' := by
  induction fuel generalizing s with
  | zero =>
      rw [runWhile] at h
      split at h
      · cases h
      · exact Option.some.inj h ▸ hi
  | succ fuel ih =>
      rw [runWhile] at h
      split at h
      · next hgo =>
          obtain ⟨t, ht, h⟩ := Option.bind_eq_some_iff.mp h
          exact ih h (round s t hi hgo ht)
      · exact Option.some.inj h ▸ hi

/-- **Total correctness**, with a variant that bounds the rounds. -/
theorem runWhile_total {I : S → Prop} {v : S → ℕ}
    (round : ∀ s, I s → goOn s = true → ∃ t, body s = some t ∧ I t ∧ v t < v s) {fuel : ℕ} (hv : v s ≤ fuel) (hi : I s) :
    ∃ s', runWhile goOn body fuel s = some s' ∧ I s' ∧ goOn s' = false := by
  induction fuel generalizing s with
  | zero =>
      cases hgo : goOn s with
      | false => exact ⟨s, runWhile_of_stop hgo 0, hi, hgo⟩
      | true =>
          obtain ⟨t, -, -, hlt⟩ := round s hi hgo
          omega
  | succ fuel ih =>
      cases hgo : goOn s with
      | false => exact ⟨s, runWhile_of_stop hgo _, hi, hgo⟩
      | true =>
          obtain ⟨t, ht, hit, hlt⟩ := round s hi hgo
          obtain ⟨s', hs', h⟩ := ih (by omega) hit
          exact ⟨s', (runWhile_of_go hgo ht fuel).trans hs', h⟩

end

/-! ### Output -/

section
variable {T A : Type*}

/-- `for (i = a; i < a + k && goOn; ++i) body`. -/
def forWhile (goOn : T → Bool) (body : ℕ → T → T) : ℕ → ℕ → T → T
  | 0, _, s => s
  | k + 1, i, s => if goOn s then forWhile goOn body k (i + 1) (body i s) else s

/-- What the rounds of a loop keep holds at its end. -/
theorem forWhile_keeps {P : T → Prop} {goOn : T → Bool} {body : ℕ → T → T} (h : ∀ i s, P s → P (body i s)) (k a : ℕ) {s : T}
    (hs : P s) : P (forWhile goOn body k a s) := by
  induction k generalizing a s with
  | zero => exact hs
  | succ k ih =>
      rw [forWhile]
      split
      · exact ih (a + 1) (h a s hs)
      · exact hs

/-- `f` keeps `ok`, and appends `xs` to the output. -/
def Emits (ok : T → Prop) (out : T → List A) (f : T → T) (xs : List A) : Prop :=
  ∀ s, ok s → ok (f s) ∧ out (f s) = out s ++ xs

variable {ok : T → Prop} {out : T → List A} {f g : T → T} {xs ys : List A}

theorem Emits.silent (h : ∀ s, ok s → ok (f s) ∧ out (f s) = out s) : Emits ok out f [] := by
  intro s hs
  rw [List.append_nil]
  exact h s hs

theorem Emits.comp (hf : Emits ok out f xs) (hg : Emits ok out g ys) : Emits ok out (fun s => g (f s)) (xs ++ ys) := by
  intro s hs
  obtain ⟨hok, hout⟩ := hf s hs
  obtain ⟨hok', hout'⟩ := hg (f s) hok
  refine ⟨hok', ?_⟩
  rw [hout', hout, List.append_assoc]

/-- A step may depend on what it finds. -/
theorem Emits.of_eq (h : ∀ s, ok s → ∃ g, f s = g s ∧ Emits ok out g xs) : Emits ok out f xs := by
  intro s hs
  obtain ⟨g, he, hg⟩ := h s hs
  rw [he]
  exact hg s hs

/-- **A loop** without a reason to stop emits what its rounds emit. -/
theorem emits_forWhile {goOn : T → Bool} {body : ℕ → T → T} {emitted : ℕ → List A} (hgo : ∀ s, goOn s = true) {k a : ℕ}
    (h : ∀ i, a ≤ i → i < a + k → Emits ok out (body i) (emitted i)) :
    Emits ok out (forWhile goOn body k a) ((List.range' a k).flatMap emitted) := by
  induction k generalizing a with
  | zero => exact .silent fun s hs => ⟨hs, rfl⟩
  | succ k ih =>
      have hstep : forWhile goOn body (k + 1) a = fun s => forWhile goOn body k (a + 1) (body a s) := by
        funext s
        rw [forWhile, if_pos (hgo s)]
      rw [hstep, List.range'_succ, List.flatMap_cons]
      exact (h a (Nat.le_refl a) (by omega)).comp (ih fun i hi hlt => h i (by omega) (by omega))

theorem emits_forRange {goOn : T → Bool} {body : ℕ → T → T} {emitted : ℕ → List A} (hgo : ∀ s, goOn s = true) (k : ℕ)
    (h : ∀ i < k, Emits ok out (body i) (emitted i)) :
    Emits ok out (forWhile goOn body k 0) ((List.range k).flatMap emitted) := by
  rw [List.range_eq_range']
  exact emits_forWhile hgo fun i _ hi => h i (by omega)

end

end Loop
