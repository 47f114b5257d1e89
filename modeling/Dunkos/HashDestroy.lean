import Dunkos.HashSize
import Dunkos.Lib.Loop

/-! # Destroying a hash table (`hashtable_destroy` of `util/hashtable.c`)

`hashtable_destroy` is `hashtable_foreach` with the destructor as the action: an element is given to the destructor, and
then its link is read to come to the next one.  What is touched, and in which order, is a list of `Touch`es.  A destructor
that leaves the links alone sees each element once (`hashtableForeachAction_kept`), but every element is read after it
was given away, whatever the destructor does: `hashtable_destroy_iff`. -/

namespace Dunkos

open Elem Loop

/-- What happens to an element: the action is called on it, or its link is read. -/
inductive Touch (P : Type) where
  | call (e : P)
  | read (e : P)
deriving DecidableEq, Repr

section
variable {L N : Type} [DecidableEq L] [DecidableEq N]

/-- A round of a traversal: `action(e, aux); e = list_next(e);`. -/
def bucketRound (action : Elem L N → ListMem L N → ListMem L N) (s : Elem L N × ListMem L N × List (Touch (Elem L N))) :
    Elem L N × ListMem L N × List (Touch (Elem L N)) :=
  (listNext (action s.1 s.2.1) s.1, action s.1 s.2.1, s.2.2 ++ [.call s.1, .read s.1])

/-- `for (e = list_begin(bucket); e != list_end(bucket); e = list_next(e)) action(e, aux);`, with what has been touched;
`none` when it does not end within `fuel` rounds. -/
def bucketForeach (action : Elem L N → ListMem L N → ListMem L N) (fuel : ℕ) (bucket : L) (m : ListMem L N)
    (log : List (Touch (Elem L N))) : Option (ListMem L N × List (Touch (Elem L N))) :=
  (runWhile (fun s => s.1 ≠ listEnd s.2.1 bucket) (fun s => some (bucketRound action s)) fuel
    (listBegin m bucket, m, log)).map Prod.snd

end

variable {N K A : Type} [DecidableEq N]

/-- `hashtable_foreach`.  The action also gets `aux`, or the bucket where `aux` is NULL. -/
def hashtableForeachAction (fuel : ℕ) (h : Hashtable N K)
    (action : Elem (Fin h.buckets) N → A ⊕ Fin h.buckets → ListMem (Fin h.buckets) N → ListMem (Fin h.buckets) N)
    (aux : Option A) : Option (ListMem (Fin h.buckets) N × List (Touch (Elem (Fin h.buckets) N))) :=
  (List.finRange h.buckets).foldlM
    (fun s bucket => bucketForeach (fun e => action e (aux.elim (.inr bucket) .inl)) fuel bucket s.1 s.2) (h.con, [])

/-- `hashtable_destroy`: what is touched.  The buckets themselves are freed at the end. -/
def hashtableDestroy (fuel : ℕ) (h : Hashtable N K)
    (destructor : Elem (Fin h.buckets) N → A ⊕ Fin h.buckets → ListMem (Fin h.buckets) N → ListMem (Fin h.buckets) N)
    (aux : Option A) : Option (List (Touch (Elem (Fin h.buckets) N))) :=
  (hashtableForeachAction fuel h destructor aux).map Prod.snd

/-! ### Reading what was given away -/

section
variable {P : Type} {log : List (Touch P)}

/-- An element is read after the action was called on it. -/
def ReadAfterCall (log : List (Touch P)) : Prop := ∃ l₁ e l₂, log = l₁ ++ .call e :: l₂ ∧ .read e ∈ l₂

theorem ReadAfterCall.append (h : ReadAfterCall log) (log' : List (Touch P)) : ReadAfterCall (log ++ log') := by
  obtain ⟨l₁, e, l₂, rfl, he⟩ := h
  exact ⟨l₁, e, l₂ ++ log', by simp, List.mem_append_left _ he⟩

theorem readAfterCall_round (log : List (Touch P)) (e : P) : ReadAfterCall (log ++ [.call e, .read e]) :=
  ⟨log, e, [.read e], rfl, List.mem_singleton.mpr rfl⟩

end

section
variable {L : Type} [DecidableEq L] {action : Elem L N → ListMem L N → ListMem L N} {fuel : ℕ} {bucket : L}
  {m m' : ListMem L N} {log log' : List (Touch (Elem L N))}

theorem bucketForeach_keeps (hlog : ReadAfterCall log) (h : bucketForeach action fuel bucket m log = some (m', log')) :
    ReadAfterCall log' := by
  unfold bucketForeach at h
  rw [Option.map_eq_some_iff] at h
  obtain ⟨s, hs, he⟩ := h
  have hend : ReadAfterCall s.2.2 := by
    refine runWhile_keeps (I := fun s => ReadAfterCall s.2.2) ?_ hs hlog
    rintro s t hi - ht
    rw [← Option.some.inj ht]
    exact hi.append _
  rwa [he] at hend

/-- In a bucket that is not empty the first round already reads what it gave away. -/
theorem bucketForeach_readAfterCall (hb : listBegin m bucket ≠ listEnd m bucket)
    (h : bucketForeach action fuel bucket m log = some (m', log')) : ReadAfterCall log' := by
  unfold bucketForeach at h
  rw [Option.map_eq_some_iff] at h
  obtain ⟨s, hs, he⟩ := h
  have hend : ReadAfterCall s.2.2 := by
    cases fuel with
    | zero =>
        rw [runWhile, if_pos (by simpa using hb)] at hs
        cases hs
    | succ fuel =>
        rw [runWhile, if_pos (by simpa using hb), Option.bind_some] at hs
        refine runWhile_keeps (I := fun s => ReadAfterCall s.2.2) ?_ hs (readAfterCall_round _ _)
        rintro s t hi - ht
        rw [← Option.some.inj ht]
        exact hi.append _
  rwa [he] at hend

/-- An empty bucket is passed over. -/
theorem bucketForeach_empty (hb : listBegin m bucket = listEnd m bucket) :
    bucketForeach action fuel bucket m log = some (m, log) := by
  unfold bucketForeach
  rw [runWhile_of_stop (by simp [hb, listEnd])]
  rfl

/-- The two touches of each element. -/
def touches (xs : List N) : List (Touch (Elem L N)) := xs.flatMap fun n => [.call (node n), .read (node n)]

theorem bucketForeach_from {σ : L → List N} (hkeep : ∀ e m, Represents m σ → Represents (action e m) σ) {done xs : List N}
    (hx : σ bucket = done ++ xs) (hr : Represents m σ) (hf : xs.length ≤ fuel) (log : List (Touch (Elem L N))) :
    ∃ m', Represents m' σ ∧ runWhile (fun s => s.1 ≠ listEnd s.2.1 bucket) (fun s => some (bucketRound action s)) fuel
      (cellAt bucket xs, m, log) = some (tail bucket, m', log ++ touches xs) := by
  induction xs generalizing done m log fuel with
  | nil =>
      refine ⟨m, hr, ?_⟩
      rw [runWhile_of_stop (by simp [cellAt, listEnd])]
      simp [cellAt, touches]
  | cons x xs ih =>
      obtain ⟨fuel, rfl⟩ : ∃ f, fuel = f + 1 := ⟨fuel - 1, by rw [List.length_cons] at hf; omega⟩
      rw [List.length_cons, Nat.add_le_add_iff_right] at hf
      have hr' := hkeep (node x) m hr
      have hnext : listNext (action (node x) m) (node x) = cellAt bucket xs := hr'.listNext_eq hx
      have hround : bucketRound action (cellAt bucket (x :: xs), m, log) =
          (cellAt bucket xs, action (node x) m, log ++ [.call (node x), .read (node x)]) := by
        rw [← hnext]
        rfl
      obtain ⟨m', hm', hrun⟩ := ih (hx.trans (List.append_cons ..)) hr' hf (log ++ [.call (node x), .read (node x)])
      refine ⟨m', hm', ?_⟩
      rw [runWhile, if_pos (by simp [cellAt, listEnd]), Option.bind_some, hround, hrun]
      simp [touches]

/-- **A bucket whose links the action leaves alone**: each element is called and then read. -/
theorem bucketForeach_kept {σ : L → List N} (hkeep : ∀ e m, Represents m σ → Represents (action e m) σ)
    (hr : Represents m σ) (hf : (σ bucket).length ≤ fuel) (log : List (Touch (Elem L N))) : ∃ m', Represents m' σ ∧
      bucketForeach action fuel bucket m log = some (m', log ++ touches (σ bucket)) := by
  obtain ⟨m', hm', hrun⟩ := bucketForeach_from hkeep (List.nil_append _).symm hr hf log
  refine ⟨m', hm', ?_⟩
  unfold bucketForeach
  rw [hr.listBegin_eq, hrun]
  rfl

end

/-! ### The whole table -/

section
variable {h : Hashtable N K} {σ : Fin h.buckets → List N} {fuel : ℕ} {aux : Option A}
  {action : Elem (Fin h.buckets) N → A ⊕ Fin h.buckets → ListMem (Fin h.buckets) N → ListMem (Fin h.buckets) N}

theorem listBegin_eq_listEnd_iff (hr : Represents h.con σ) (b : Fin h.buckets) :
    listBegin h.con b = listEnd h.con b ↔ σ b = [] := by
  rw [hr.listBegin_eq]
  cases σ b <;> simp [cellAt, listEnd]

/-- **A traversal that leaves the links alone** comes to each element of the table once. -/
theorem hashtableForeachAction_kept (hr : Represents h.con σ) (hf : ∀ b, (σ b).length ≤ fuel)
    (hkeep : ∀ e x m, Represents m σ → Represents (action e x m) σ) : ∃ m', Represents m' σ ∧
      hashtableForeachAction fuel h action aux = some (m', touches (bucketElems σ)) := by
  have hround : ∀ (done : List (Fin h.buckets)) (b : Fin h.buckets)
      (s : ListMem (Fin h.buckets) N × List (Touch (Elem (Fin h.buckets) N))), done ++ [b] <+: List.finRange h.buckets →
      Represents s.1 σ ∧ s.2 = touches (done.flatMap σ) →
      ∃ s', bucketForeach (fun e => action e (aux.elim (.inr b) .inl)) fuel b s.1 s.2 = some s' ∧
        Represents s'.1 σ ∧ s'.2 = touches ((done ++ [b]).flatMap σ) := by
    rintro done b ⟨m, log⟩ - ⟨hm, rfl⟩
    obtain ⟨m', hm', hrun⟩ := bucketForeach_kept (fun e m => hkeep e _ m) hm (hf b) (touches (done.flatMap σ))
    refine ⟨_, hrun, hm', ?_⟩
    simp [touches]
  obtain ⟨⟨m', log⟩, hrun, hm', hlog⟩ :=
    foldlM_total (I := fun done (s : ListMem (Fin h.buckets) N × List (Touch (Elem (Fin h.buckets) N))) =>
      Represents s.1 σ ∧ s.2 = touches (done.flatMap σ)) (s := (h.con, [])) hround ⟨hr, rfl⟩
  refine ⟨m', hm', hrun.trans ?_⟩
  rw [show log = _ from hlog]
  rfl

/-- A traversal that ends has read what it gave away, if there is an element in one of the buckets. -/
theorem foldlM_readAfterCall {bs : List (Fin h.buckets)} {r : ListMem (Fin h.buckets) N × List (Touch (Elem (Fin h.buckets) N))}
    (hrun : bs.foldlM (fun s bucket => bucketForeach (fun e => action e (aux.elim (.inr bucket) .inl)) fuel bucket s.1 s.2)
      (h.con, []) = some r) : ReadAfterCall r.2 ∨ r.2 = [] ∧ ∀ b ∈ bs, listBegin h.con b = listEnd h.con b := by
  induction bs with
  | nil =>
      obtain rfl : (h.con, []) = r := Option.some.inj hrun
      exact .inr ⟨rfl, by simp⟩
  | cons b bs ih =>
      rw [List.foldlM_cons] at hrun
      by_cases hb : listBegin h.con b = listEnd h.con b
      · rw [bucketForeach_empty hb] at hrun
        refine (ih hrun).imp_right fun hempty => ⟨hempty.1, ?_⟩
        simpa [hb] using hempty.2
      · obtain ⟨s, hs, hrun⟩ := Option.bind_eq_some_iff.mp hrun
        refine .inl (foldlM_keeps (I := fun s => ReadAfterCall s.2) ?_ hrun (bucketForeach_readAfterCall hb hs))
        exact fun b _ s s' hi hs => bucketForeach_keeps hi hs

/-- Where no bucket has an element nothing is touched. -/
theorem hashtableForeachAction_empty (hempty : ∀ b, listBegin h.con b = listEnd h.con b) :
    hashtableForeachAction fuel h action aux = some (h.con, []) := by
  unfold hashtableForeachAction
  induction List.finRange h.buckets with
  | nil => rfl
  | cons b bs ih =>
      rw [List.foldlM_cons, bucketForeach_empty (hempty b)]
      exact ih

end

/-- What `hashtable_destroy` is for: it ends, the destructor is called once on each linked element and on nothing else,
and no element is read after that. -/
def Destroys (h : Hashtable N K)
    (destructor : Elem (Fin h.buckets) N → A ⊕ Fin h.buckets → ListMem (Fin h.buckets) N → ListMem (Fin h.buckets) N)
    (aux : Option A) : Prop :=
  ∃ fuel log, hashtableDestroy fuel h destructor aux = some log ∧ (∀ n, h.Linked n → log.count (.call (node n)) = 1) ∧
    (∀ e, .call e ∈ log → ∃ n, e = node n ∧ h.Linked n) ∧ ¬ ReadAfterCall log

section
variable {h : Hashtable N K}
  {destructor : Elem (Fin h.buckets) N → A ⊕ Fin h.buckets → ListMem (Fin h.buckets) N → ListMem (Fin h.buckets) N}
  {aux : Option A}

/-- Where some bucket begins with an element, it is read after it was destroyed, or the traversal does not end. -/
theorem Destroys.empty (hd : Destroys h destructor aux) (b : Fin h.buckets) : listBegin h.con b = listEnd h.con b := by
  obtain ⟨fuel, log, hrun, -, -, hread⟩ := hd
  unfold hashtableDestroy at hrun
  rw [Option.map_eq_some_iff] at hrun
  obtain ⟨r, hrun, rfl⟩ := hrun
  exact ((foldlM_readAfterCall hrun).resolve_left hread).2 b (List.mem_finRange b)

theorem destroys_of_empty (hempty : ∀ b, listBegin h.con b = listEnd h.con b) (hno : ∀ n, ¬ h.Linked n) :
    Destroys h destructor aux := by
  refine ⟨0, [], ?_, fun n hn => absurd hn (hno n), by simp, ?_⟩
  · unfold hashtableDestroy
    rw [hashtableForeachAction_empty hempty]
    rfl
  · rintro ⟨l₁, e, l₂, he, -⟩
    simp at he

end

/-- **`hashtable_destroy` is right for no table with an element in it**, whatever the destructor leaves of an element. -/
theorem hashtable_destroy_iff {h : Hashtable N K} {σ : Fin h.buckets → List N} (hr : Represents h.con σ)
    (destructor : Elem (Fin h.buckets) N → A ⊕ Fin h.buckets → ListMem (Fin h.buckets) N → ListMem (Fin h.buckets) N)
    (aux : Option A) : Destroys h destructor aux ↔ ∀ n, ¬ h.Linked n := by
  have hlinked : (∀ n, ¬ h.Linked n) ↔ ∀ b, listBegin h.con b = listEnd h.con b := by
    simp only [Hashtable.Linked, hr.forward_eq, listBegin_eq_listEnd_iff hr, List.eq_nil_iff_forall_not_mem, not_exists]
    exact forall_comm
  constructor
  · exact fun hd => hlinked.mpr hd.empty
  · exact fun hno => destroys_of_empty (hlinked.mp hno) hno

/-- The table of numbers without one. -/
theorem hashtable_destroy_none : Destroys numberTable (fun _ (_ : Unit ⊕ _) m => m) none := by
  have hr : Represents numberTable.con fun _ => [] :=
    .of_fresh fun b => .inl (foldl_listInit _ (.inl (List.mem_finRange b)))
  refine (hashtable_destroy_iff hr _ none).mpr ?_
  rintro n ⟨b, hb⟩
  rw [hr.forward_eq] at hb
  cases hb

/-- **The table with the number 4**: the element is read after it was destroyed, if its links are still there. -/
theorem hashtable_destroy_four : ¬ ∀ (h : Hashtable ℕ ℕ) (σ : Fin h.buckets → List ℕ)
    (destructor : Elem (Fin h.buckets) ℕ → Unit ⊕ Fin h.buckets → ListMem (Fin h.buckets) ℕ → ListMem (Fin h.buckets) ℕ),
    Represents h.con σ → Destroys h destructor none := by
  intro h
  have hr : Represents numberTableFour.con _ :=
    (Represents.of_fresh fun b => .inl (foldl_listInit _ (.inl (List.mem_finRange b)))).pushBack (numberTable.bucket 4)
      (n := 4) fun _ => List.not_mem_nil
  have hempty := (h numberTableFour _ (fun _ _ m => m) hr).empty (numberTable.bucket 4)
  revert hempty
  decide

end Dunkos
