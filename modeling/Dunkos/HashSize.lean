import Dunkos.FdTable

/-! # The size of a hash table (`hashtable_size` of `util/hashtable.h`)

`hashtable_insert` counts an element that takes no other element's place, and `hashtable_remove` counts nothing.  So
every `hashtable_remove` that finds an element leaves the size one too large: `hashtable_size_iff`. -/

namespace Dunkos

open Elem

variable {N K : Type} [DecidableEq N]

/-- `hashtable_size`, a `size_t`. -/
def hashtableSize (h : Hashtable N K) : BitVec 64 := BitVec.ofNat 64 h.entries

/-- The elements of all buckets. -/
def bucketElems {k : ℕ} (σ : Fin k → List N) : List N := (List.finRange k).flatMap σ

/-! ### What the counter and the buckets make of a call -/

omit [DecidableEq N] in
/-- The elements as the map has them, without the order of the buckets. -/
theorem Table.bucketElems_perm {h : Hashtable N K} {key : N → K} {last : K → Option N} {σ : Fin h.buckets → List N}
    (ht : Table h key last σ) {ns : List N} (hnd : ns.Nodup) (hmem : ∀ n, last (key n) = some n ↔ n ∈ ns) :
    (bucketElems σ).Perm ns :=
  (List.perm_ext_iff_of_nodup ht.elements_nodup hnd).mpr fun n => ht.mem_elements.trans (hmem n)

section
variable {h h' : Hashtable N K} {key : N → K} {last : K → Option N} {σ : Fin h.buckets → List N}
  {σ' : Fin h'.buckets → List N} {e : N}

omit [DecidableEq N] in
theorem Table.mem_bucketElems (ht : Table h key last σ) {n : N} : n ∈ bucketElems σ ↔ last (key n) = some n :=
  ht.mem_elements

omit [DecidableEq N] in
theorem Table.nodup_bucketElems (ht : Table h key last σ) : (bucketElems σ).Nodup := ht.elements_nodup

omit [DecidableEq N] in
/-- A class has the element that is named for it, and no other. -/
theorem Table.classElems_perm (ht : Table h key last σ) (k : K) :
    ((bucketElems σ).filter fun n => h.eq (key n) k).Perm (last k).toList := by
  refine (List.perm_ext_iff_of_nodup (ht.nodup_bucketElems.filter _) (by cases last k <;> simp)).mpr fun n => ?_
  rw [List.mem_filter, ht.mem_bucketElems, Option.mem_toList]
  constructor
  · rintro ⟨hn, hk⟩
    rwa [← ht.last_congr hk]
  · intro hn
    have hk : h.eq (key n) k = true := ht.lawful.equiv.symm ((ht.last_iff k n).mp hn).2
    exact ⟨(ht.last_congr hk).trans hn, hk⟩

/-- The elements of the other classes. -/
def otherElems (h : Hashtable N K) (key : N → K) (σ : Fin h.buckets → List N) (k : K) : List N :=
  (bucketElems σ).filter fun n => !h.eq (key n) k

omit [DecidableEq N] in
theorem Table.length_otherElems (ht : Table h key last σ) (k : K) :
    (otherElems h key σ k).length + (last k).toList.length = (bucketElems σ).length := by
  rw [← (ht.classElems_perm k).length_eq, Nat.add_comm]
  exact (List.length_eq_length_filter_add _).symm

omit [DecidableEq N] in
/-- A removal leaves the elements of the other classes. -/
theorem Table.removed_perm (ht : Table h key last σ)
    (ht' : Table h' key (fun k => if h.eq k (key e) then none else last k) σ') :
    (bucketElems σ').Perm (otherElems h key σ (key e)) := by
  refine ht'.bucketElems_perm (ht.nodup_bucketElems.filter _) fun n => ?_
  unfold otherElems
  rw [List.mem_filter, ht.mem_bucketElems]
  cases h.eq (key n) (key e) <;> simp

omit [DecidableEq N] in
/-- And an insertion adds its own. -/
theorem Table.inserted_perm (ht : Table h key last σ) (he : e ∉ bucketElems σ)
    (ht' : Table h' key (fun k => if h.eq k (key e) then some e else last k) σ') :
    (bucketElems σ').Perm (e :: otherElems h key σ (key e)) := by
  have hnd : (e :: otherElems h key σ (key e)).Nodup :=
    List.nodup_cons.mpr ⟨fun hm => he (List.mem_of_mem_filter hm), ht.nodup_bucketElems.filter _⟩
  refine ht'.bucketElems_perm hnd fun n => ?_
  unfold otherElems
  rw [List.mem_cons, List.mem_filter, ht.mem_bucketElems]
  by_cases hne : n = e
  · subst hne
    simp [ht.lawful.equiv.refl (key n)]
  · cases h.eq (key n) (key e) <;> simp [hne, Ne.symm hne]

theorem Table.entries_insert (ht : Table h key last σ) (hi : hashtableInsert h key e = some h') :
    h'.entries + (last (key e)).toList.length = h.entries + 1 := by
  unfold hashtableInsert at hi
  rw [ht.search_eq, Option.map_some, Option.some.injEq] at hi
  subst hi
  cases last (key e) <;> simp [listEnd]

end

/-! ### Runs -/

namespace HashState
variable {fn : K → ℕ} {eq : K → K → Bool} {s t : HashState N K} {op : HashOp N K}

/-- `hashtable_size` is the number of the elements that are linked, which is that of the keys present and of the calls
that `hashtable_foreach` makes. -/
def SizeRight (s : HashState N K) : Prop :=
  ∃ ns, hashtableForeach s.h = some ns ∧ ns.Nodup ∧ (∀ n, n ∈ ns ↔ s.h.Linked n) ∧
    ns.Pairwise (fun n n' => s.h.eq (s.key n) (s.key n') = false) ∧ hashtableSize s.h = BitVec.ofNat 64 ns.length

/-- A removal that comes to an element. -/
def Finds (s : HashState N K) : HashOp N K → Prop
  | .remove e => hashtableFind s.h s.key e ≠ some null
  | _ => False

section
variable {σ : Fin s.h.buckets → List N}

theorem linked_iff (ht : Table s.h s.key s.last σ) (n : N) : s.h.Linked n ↔ n ∈ bucketElems σ := by
  simp [Hashtable.Linked, bucketElems, ht.represents.forward_eq]

omit [DecidableEq N] in
/-- Linked elements have different keys. -/
theorem keys_pairwise (ht : Table s.h s.key s.last σ) :
    (bucketElems σ).Pairwise fun n n' => s.h.eq (s.key n) (s.key n') = false := by
  refine ht.nodup_bucketElems.imp_of_mem fun {n n'} hn hn' hne => ?_
  rw [ht.mem_bucketElems] at hn hn'
  rw [← Bool.not_eq_true]
  intro he
  rw [ht.last_congr he, hn', Option.some.injEq] at hn
  exact hne hn.symm

theorem sizeRight_iff (ht : Table s.h s.key s.last σ) :
    s.SizeRight ↔ hashtableSize s.h = BitVec.ofNat 64 (bucketElems σ).length := by
  have hforeach : hashtableForeach s.h = some (bucketElems σ) := hashtableForeach_represents ht.represents
  constructor
  · rintro ⟨ns, hns, -, -, -, hsize⟩
    rw [hforeach, Option.some.injEq] at hns
    rw [hsize, hns]
  · exact fun hsize =>
      ⟨_, hforeach, ht.nodup_bucketElems, fun n => (linked_iff ht n).symm, keys_pairwise ht, hsize⟩

theorem finds_remove_iff (ht : Table s.h s.key s.last σ) (e : N) :
    s.Finds (.remove e) ↔ (s.last (s.key e)).isSome := by
  show hashtableFind s.h s.key e ≠ some null ↔ _
  rw [ht.find_eq]
  cases s.last (s.key e) <;> simp

end

/-- The counter is what it was among the elements. -/
theorem size_add {a b c : ℕ} : BitVec.ofNat 64 (a + c) = BitVec.ofNat 64 (b + c) ↔ BitVec.ofNat 64 a = BitVec.ofNat 64 b := by
  rw [BitVec.ofNat_add, BitVec.ofNat_add]
  exact BitVec.add_left_inj _

/-- **One step.**  A size that is right stays so exactly if the step is not a removal that comes to an element. -/
theorem sizeRight_step (hs : Inv fn eq s) (hok : Ok s op) (hst : step s op = some t) (hr : s.SizeRight) :
    t.SizeRight ↔ ¬ s.Finds op := by
  obtain ⟨rfl, rfl, σ, ht⟩ := hs
  rw [sizeRight_iff ht] at hr
  cases op with
  | insert e =>
      obtain ⟨con, entries, σ', he, ht'⟩ := ht.insert (not_linked ht hok)
      have hentries := ht.entries_insert he
      have hother := ht.length_otherElems (s.key e)
      have hlen := (ht.inserted_perm (fun hm => hok ((linked_iff ht e).mpr hm)) ht').length_eq
      rw [List.length_cons] at hlen
      have hkept : (bucketElems σ').length + (s.last (s.key e)).toList.length = (bucketElems σ).length + 1 := by omega
      have hst' := (step_insert he).symm.trans hst
      cases hst'
      refine iff_of_true ((sizeRight_iff ht').mpr ?_) id
      show BitVec.ofNat 64 entries = _
      rw [← size_add, hkept, show entries + _ = _ from hentries, size_add]
      exact hr
  | remove e =>
      obtain ⟨con, σ', he, ht'⟩ := ht.remove e
      have hother := ht.length_otherElems (s.key e)
      have hlen := (ht.removed_perm ht').length_eq
      rw [finds_remove_iff ht]
      rw [step, he] at hst
      cases hst
      refine (sizeRight_iff ht').trans ?_
      show BitVec.ofNat 64 s.h.entries = _ ↔ _
      rw [show BitVec.ofNat 64 s.h.entries = _ from hr, hlen, ← hother]
      cases s.last (s.key e) with
      | none => simp
      | some n =>
          -- one element less, and the counter stays
          refine iff_of_false (fun h => ?_) (by simp)
          have := congrArg BitVec.toNat h
          simp only [Option.toList_some, List.length_singleton, BitVec.toNat_ofNat] at this
          omega
  | write n k =>
      cases hst
      refine iff_of_true ((sizeRight_iff (ht.write (not_linked ht hok) k)).mpr hr) id

end HashState

/-- **The size of a hash table.**  It is right in every state of a run from `hashtable_init` without a removal that comes
to an element.  The first such removal makes it wrong. -/
theorem hashtable_size_iff {fn : K → ℕ} {eq : K → K → Bool} (hl : LawfulHash fn eq) (con : ListMem (Fin initBuckets) N)
    (key : N → K) :
    (∀ s, Transition.Reach HashState.step (fun s op => HashState.Ok s op ∧ ¬ s.Finds op)
      ⟨hashtableInit con fn eq, key, fun _ => none⟩ s → s.SizeRight) ∧
    ∀ s op t, Transition.Reach HashState.step HashState.Ok ⟨hashtableInit con fn eq, key, fun _ => none⟩ s →
      s.SizeRight → HashState.Ok s op → HashState.step s op = some t → (t.SizeRight ↔ ¬ s.Finds op) := by
  have h₀ := HashState.inv_init hl con key
  have hinv : ∀ s, Transition.Reach HashState.step HashState.Ok ⟨hashtableInit con fn eq, key, fun _ => none⟩ s →
      HashState.Inv fn eq s :=
    fun s hs => hs.invariant h₀ fun _ _ _ hs hok hst => HashState.inv_step hs hok hst
  constructor
  · intro s hs
    refine (hs.invariant (I := fun s => HashState.Inv fn eq s ∧ s.SizeRight) ⟨h₀, ?_⟩ ?_).2
    · obtain ⟨-, -, σ, ht⟩ := h₀
      refine (HashState.sizeRight_iff ht).mpr ?_
      have hnil : bucketElems σ = [] := by
        refine List.eq_nil_iff_forall_not_mem.mpr fun n hn => ?_
        cases ht.mem_bucketElems.mp hn
      rw [hnil]
      rfl
    · intro s op t hi hok hst
      exact ⟨HashState.inv_step hi.1 hok.1 hst, (HashState.sizeRight_step hi.1 hok.1 hst hi.2).mpr hok.2⟩
  · exact fun s op t hs hr hok hst => HashState.sizeRight_step (hinv s hs) hok hst hr

/-! ### Numbers in a table -/

/-- Numbers are their own keys, and the hash is the remainder by 7. -/
def numberTable : Hashtable ℕ ℕ :=
  hashtableInit ⟨fun _ => null, fun _ => null, fun _ => 0⟩ (fun k => k % 7) (fun a b => a == b)

theorem numberTable_lawful : LawfulHash (fun k : ℕ => k % 7) (fun a b => a == b) := by
  refine ⟨⟨?_, ?_, ?_⟩, ?_⟩ <;> simp +contextual

/-- The table after `hashtable_insert` of 4. -/
def numberTableFour : Hashtable ℕ ℕ :=
  { numberTable with con := listPushBack numberTable.con (numberTable.bucket 4) (node 4), entries := 1 }

theorem numberTable_insert : HashState.step ⟨numberTable, id, fun _ => none⟩ (.insert 4) =
    some ⟨numberTableFour, id, fun k => if k == 4 then some 4 else none⟩ := HashState.step_insert rfl

theorem numberTable_ok : HashState.Ok ⟨numberTable, id, fun _ => none⟩ (.insert 4) := by
  rintro ⟨b, hb⟩
  revert b
  decide

theorem numberTable_size_one : HashState.SizeRight ⟨numberTableFour, id, fun k => if k == 4 then some 4 else none⟩ :=
  (hashtable_size_iff numberTable_lawful _ id).1 _ (.next .start ⟨numberTable_ok, id⟩ numberTable_insert)

/-- **4 is inserted and removed**: the size of the table without elements is one. -/
theorem hashtable_size_stale : ¬ ∀ (fn : ℕ → ℕ) (eq : ℕ → ℕ → Bool) (con : ListMem (Fin initBuckets) ℕ) (key : ℕ → ℕ)
    (s : HashState ℕ ℕ), LawfulHash fn eq →
    Transition.Reach HashState.step HashState.Ok ⟨hashtableInit con fn eq, key, fun _ => none⟩ s → s.SizeRight := by
  intro h
  have hrun : Transition.Reach HashState.step HashState.Ok ⟨numberTable, id, fun _ => none⟩
      ⟨numberTableFour, id, fun k => if k == 4 then some 4 else none⟩ :=
    .next .start numberTable_ok numberTable_insert
  have hstep : HashState.step ⟨numberTableFour, id, fun k => if k == 4 then some 4 else none⟩ (.remove 4) =
      some ⟨{ numberTableFour with con := listRemove numberTableFour.con (numberTableFour.bucket 4) (node 4) }, id,
        fun k => if k == 4 then none else if k == 4 then some 4 else none⟩ := rfl
  obtain ⟨ns, hns, -, -, -, hsize⟩ := h _ _ _ _ _ numberTable_lawful (hrun.next (a := HashOp.remove 4) trivial hstep)
  have hempty : hashtableForeach
      { numberTableFour with con := listRemove numberTableFour.con (numberTableFour.bucket 4) (node 4) } = some [] := by
    decide
  rw [hempty, Option.some.injEq] at hns
  rw [← hns] at hsize
  revert hsize
  decide

end Dunkos
