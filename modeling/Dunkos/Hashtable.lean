import Dunkos.ListSpec

/-! # The hash table (`util/hashtable.h`, `util/hashtable.c`)

A table is an array of `buckets` intrusive lists and the user's hash and equality.  The elements
are the nodes of an arbitrary pool `N`; `key : N → K` is what the user's functions read from the
object an element is embedded in.  `hashtable_find`, `hashtable_insert` and `hashtable_remove` start
with the same loop over a bucket, `bucketSearch`, which is `none` when the loop does not end within
one round more than the bucket has nodes, or leaves the nodes by another pointer than `list_end`.

`hashtable_finite_map` says that the table is a finite map over the classes of the equality. -/

namespace Dunkos

open Elem

/-- `INIT_BUCKETS`. -/
def initBuckets : ℕ := 10

/-- `struct hashtable`; `con` is the array `bucket_con`. -/
structure Hashtable (N K : Type) where
  buckets : ℕ
  buckets_pos : 0 < buckets
  entries : ℕ
  con : ListMem (Fin buckets) N
  fn : K → ℕ
  eq : K → K → Bool

variable {N K : Type} [DecidableEq N]

/-- `bucket_con` is the block `kcalloc` returned, every list of it set up by `list_init`. -/
def hashtableInit (con : ListMem (Fin initBuckets) N) (fn : K → ℕ) (id : K → K → Bool) : Hashtable N K :=
  ⟨initBuckets, by decide, 0, (List.finRange initBuckets).foldl listInit con, fn, id⟩

/-- `while (b_el != list_end(bucket) && !h->eq(e, b_el)) b_el = list_next(b_el);`, at most `k` rounds. -/
def searchLoop {L : Type} [DecidableEq L] (m : ListMem L N) (bucket : L) (eq : N → Bool) :
    ℕ → Elem L N → Option (Elem L N)
  | 0, _ => none
  | k + 1, b_el =>
    if b_el = listEnd m bucket then some b_el
    else b_el.node?.bind (fun n => if eq n then some b_el else searchLoop m bucket eq k (listNext m b_el))

/-- The loop of the three operations, started at `list_begin(bucket)`. -/
def bucketSearch {L : Type} [DecidableEq L] (m : ListMem L N) (bucket : L) (eq : N → Bool) :
    Option (Elem L N) :=
  searchLoop m bucket eq (listSize m bucket + 1) (listBegin m bucket)

namespace Hashtable

/-- `h->bucket_con + h->fn(e) % h->buckets`. -/
def bucket (h : Hashtable N K) (k : K) : Fin h.buckets := ⟨h.fn k % h.buckets, Nat.mod_lt _ h.buckets_pos⟩

/-- Where the loop over the bucket of `e` stops. -/
def search (h : Hashtable N K) (key : N → K) (e : N) : Option (Elem (Fin h.buckets) N) :=
  bucketSearch h.con (h.bucket (key e)) (fun n => h.eq (key e) (key n))

end Hashtable

def hashtableFind (h : Hashtable N K) (key : N → K) (e : N) : Option (Elem (Fin h.buckets) N) :=
  (h.search key e).map (fun b_el => if b_el = listEnd h.con (h.bucket (key e)) then null else b_el)

def hashtableInsert (h : Hashtable N K) (key : N → K) (e : N) : Option (Hashtable N K) :=
  (h.search key e).map (fun b_el =>
    let bucket := h.bucket (key e)
    if b_el = listEnd h.con bucket then
      { h with con := listPushBack h.con bucket (node e), entries := h.entries + 1 }
    else { h with con := listPushBack (listRemove h.con bucket b_el) bucket (node e) })

def hashtableRemove (h : Hashtable N K) (key : N → K) (e : N) : Option (Hashtable N K) :=
  (h.search key e).map (fun b_el =>
    let bucket := h.bucket (key e)
    if b_el ≠ listEnd h.con bucket then { h with con := listRemove h.con bucket b_el } else h)

/-! ### The search loop -/

/-- On a chain the loop stops at the first node that matches, or at the end. -/
theorem searchLoop_chain {L : Type} [DecidableEq L] {m : ListMem L N} {bucket : L} {eq : N → Bool}
    {a : Elem L N} {xs : List N}
    (h : Linked.Chain m.next m.prev (a :: (xs.map node ++ [tail bucket]))) {k : ℕ} (hk : xs.length < k) :
    searchLoop m bucket eq k (m.next a) = some (((xs.find? eq).map node).getD (tail bucket)) := by
  induction xs generalizing a k with
  | nil =>
      obtain ⟨k, rfl⟩ : ∃ j, k = j + 1 := ⟨k - 1, by omega⟩
      rw [(Linked.Chain.cons_cons_iff.mp h).1.1]
      simp [searchLoop, listEnd]
  | cons x xs ih =>
      obtain ⟨k, rfl⟩ : ∃ j, k = j + 1 := ⟨k - 1, by omega⟩
      rw [(Linked.Chain.cons_cons_iff.mp h).1.1, searchLoop, if_neg (by simp [listEnd]), node?_node, Option.bind_some,
        List.find?_cons]
      cases hx : eq x with
      | true => simp
      | false =>
          rw [if_neg (by simp)]
          exact ih (Linked.Chain.cons_cons_iff.mp h).2 (by simpa using hk)

theorem bucketSearch_holds {L : Type} [DecidableEq L] {m : ListMem L N} {bucket : L} {xs : List N}
    (h : Holds m bucket xs) (eq : N → Bool) :
    bucketSearch m bucket eq = some (((xs.find? eq).map node).getD (tail bucket)) := by
  unfold bucketSearch listBegin listSize
  rw [ListMem.size_eq, h.size]
  by_cases hx : xs = []
  · subst hx
    rw [if_pos (h.listEmpty_iff.mpr rfl)]
    simp [searchLoop, listEnd]
  · rw [if_neg (fun e => hx (h.listEmpty_iff.mp e))]
    exact searchLoop_chain (h.chain hx) (Nat.lt_succ_self _)

/-! ### The representation invariant -/

/-- The user's promise about the two functions. -/
structure LawfulHash (fn : K → ℕ) (eq : K → K → Bool) : Prop where
  equiv : Equivalence (fun a b => eq a b = true)
  fn_eq : ∀ a b, eq a b = true → fn a = fn b

/-- The buckets hold `σ`, every node is in the bucket of its key, no two linked nodes have equal
keys, and `last` names for every key the linked node with an equal one. -/
structure Table (h : Hashtable N K) (key : N → K) (last : K → Option N) (σ : Fin h.buckets → List N) :
    Prop where
  lawful : LawfulHash h.fn h.eq
  represents : Represents h.con σ
  placed : ∀ b, ∀ n ∈ σ b, b = h.bucket (key n)
  unique : ∀ b, ∀ n ∈ σ b, ∀ n' ∈ σ b, h.eq (key n) (key n') = true → n = n'
  last_iff : ∀ k n, last k = some n ↔ n ∈ σ (h.bucket k) ∧ h.eq k (key n) = true

namespace Table
variable {h : Hashtable N K} {key : N → K} {last : K → Option N} {σ : Fin h.buckets → List N}

omit [DecidableEq N] in
theorem bucket_eq (ht : Table h key last σ) {k k' : K} (he : h.eq k k' = true) : h.bucket k = h.bucket k' := by
  unfold Hashtable.bucket
  rw [Fin.mk.injEq, ht.lawful.fn_eq k k' he]

omit [DecidableEq N] in
/-- The first match in the bucket of a key is the node that `last` names. -/
theorem find?_eq (ht : Table h key last σ) (k : K) :
    (σ (h.bucket k)).find? (fun n => h.eq k (key n)) = last k := by
  cases hk : last k with
  | none =>
      rw [List.find?_eq_none]
      intro n hn he
      rw [(ht.last_iff k n).mpr ⟨hn, he⟩] at hk
      cases hk
  | some n =>
      obtain ⟨hn, he⟩ := (ht.last_iff k n).mp hk
      have hs : ((σ (h.bucket k)).find? (fun n => h.eq k (key n))).isSome = true :=
        List.find?_isSome.mpr ⟨n, hn, he⟩
      obtain ⟨n', hf⟩ := Option.isSome_iff_exists.mp hs
      have he' : h.eq k (key n') = true := by simpa using List.find?_some hf
      have hnn := ht.unique _ n hn n' (List.mem_of_find?_eq_some hf)
        (ht.lawful.equiv.trans (ht.lawful.equiv.symm he) he')
      rw [hf, hnn]

omit [DecidableEq N] in
/-- Equal keys name one node. -/
theorem last_congr (ht : Table h key last σ) {k k' : K} (hk : h.eq k k' = true) : last k = last k' := by
  apply Option.ext
  intro n
  rw [ht.last_iff, ht.last_iff, ht.bucket_eq hk]
  refine and_congr_right fun _ => ⟨fun hn => ?_, fun hn => ?_⟩
  · exact ht.lawful.equiv.trans (ht.lawful.equiv.symm hk) hn
  · exact ht.lawful.equiv.trans hk hn

omit [DecidableEq N] in
/-- No node has a key of a class without one. -/
theorem eq_false_of_last (ht : Table h key last σ) {k : K} (hlast : last k = none) :
    ∀ b, ∀ n ∈ σ b, h.eq k (key n) = false := by
  intro b n hn
  rw [Bool.eq_false_iff]
  intro hkn
  have hb : b = h.bucket k := by rw [ht.placed b n hn, ht.bucket_eq hkn]
  rw [(ht.last_iff k n).mpr ⟨hb ▸ hn, hkn⟩] at hlast
  cases hlast

theorem search_eq (ht : Table h key last σ) (e : N) :
    h.search key e = some (((last (key e)).map node).getD (tail (h.bucket (key e)))) := by
  unfold Hashtable.search
  rw [bucketSearch_holds (ht.represents.holds _), ht.find?_eq]

theorem find_eq (ht : Table h key last σ) (e : N) :
    hashtableFind h key e = some (((last (key e)).map node).getD null) := by
  unfold hashtableFind
  rw [ht.search_eq]
  cases last (key e) <;> simp [listEnd]

omit [DecidableEq N] in
/-- Taking the nodes of one class out of their bucket forgets the class. -/
theorem forget (ht : Table h key last σ) (k : K) {con : ListMem (Fin h.buckets) N}
    {xs : List N} (hr : Represents con (Function.update σ (h.bucket k) xs))
    (hxs : ∀ n, n ∈ xs ↔ n ∈ σ (h.bucket k) ∧ h.eq k (key n) = false) :
    Table { h with con := con } key (fun k' => if h.eq k' k then none else last k')
      (Function.update σ (h.bucket k) xs) := by
  have hsub : ∀ b, ∀ n ∈ Function.update σ (h.bucket k) xs b, n ∈ σ b := by
    intro b n hn
    by_cases hb : b = h.bucket k
    · subst hb
      rw [Function.update_self] at hn
      exact ((hxs n).mp hn).1
    · rwa [Function.update_of_ne hb] at hn
  refine ⟨ht.lawful, hr, fun b n hn => ht.placed b n (hsub b n hn),
    fun b n hn n' hn' => ht.unique b n (hsub b n hn) n' (hsub b n' hn'), ?_⟩
  intro k' n
  show (if h.eq k' k then none else last k') = some n ↔
    n ∈ Function.update σ (h.bucket k) xs (h.bucket k') ∧ h.eq k' (key n) = true
  by_cases he : h.eq k' k = true
  · rw [if_pos he, ht.bucket_eq he, Function.update_self, hxs]
    refine ⟨nofun, ?_⟩
    rintro ⟨⟨-, hne⟩, hn⟩
    rw [ht.lawful.equiv.trans (ht.lawful.equiv.symm he) hn] at hne
    cases hne
  · rw [if_neg he, ht.last_iff k' n]
    refine ⟨?_, fun hn => ⟨hsub _ n hn.1, hn.2⟩⟩
    rintro ⟨hn, hn'⟩
    refine ⟨?_, hn'⟩
    by_cases hb : h.bucket k' = h.bucket k
    · rw [hb] at hn ⊢
      rw [Function.update_self, hxs]
      refine ⟨hn, ?_⟩
      rw [Bool.eq_false_iff]
      exact fun hk => he (ht.lawful.equiv.trans hn' (ht.lawful.equiv.symm hk))
    · rwa [Function.update_of_ne hb]

/-- Appending a node of a class that has none names it. -/
theorem append (ht : Table h key last σ) {e : N} (he : ∀ b, e ∉ σ b)
    (hlast : last (key e) = none) (entries : ℕ) :
    Table { h with con := listPushBack h.con (h.bucket (key e)) (node e), entries := entries } key
      (fun k => if h.eq k (key e) then some e else last k)
      (Function.update σ (h.bucket (key e)) (σ (h.bucket (key e)) ++ [e])) := by
  set b₀ := h.bucket (key e) with hb₀
  have hmem : ∀ b n, n ∈ Function.update σ b₀ (σ b₀ ++ [e]) b ↔ n ∈ σ b ∨ (b = b₀ ∧ n = e) := by
    intro b n
    by_cases hb : b = b₀
    · rw [hb, Function.update_self]
      simp
    · rw [Function.update_of_ne hb]
      simp [hb]
  have hnone := ht.eq_false_of_last hlast
  refine ⟨ht.lawful, ht.represents.pushBack b₀ he, ?_, ?_, ?_⟩
  · intro b n hn
    rcases (hmem b n).mp hn with hn | ⟨rfl, rfl⟩
    · exact ht.placed b n hn
    · rfl
  · intro b n hn n' hn' hee
    have hee' : h.eq (key n) (key n') = true := hee
    rcases (hmem b n).mp hn with h₁ | ⟨-, rfl⟩ <;> rcases (hmem b n').mp hn' with h₂ | ⟨-, rfl⟩
    · exact ht.unique b n h₁ n' h₂ hee'
    · have := hnone b n h₁
      rw [ht.lawful.equiv.symm hee'] at this
      cases this
    · have := hnone b n' h₂
      rw [hee'] at this
      cases this
    · rfl
  · intro k n
    show (if h.eq k (key e) then some e else last k) = some n ↔
      n ∈ Function.update σ b₀ (σ b₀ ++ [e]) (h.bucket k) ∧ h.eq k (key n) = true
    rw [hmem]
    by_cases hk : h.eq k (key e) = true
    · rw [if_pos hk, Option.some.injEq]
      constructor
      · rintro rfl
        exact ⟨.inr ⟨ht.bucket_eq hk, rfl⟩, hk⟩
      · rintro ⟨hn | ⟨-, rfl⟩, hkn⟩
        · have := hnone _ n hn
          rw [ht.lawful.equiv.trans (ht.lawful.equiv.symm hk) hkn] at this
          cases this
        · rfl
    · rw [if_neg hk, ht.last_iff k n]
      constructor
      · exact fun hn => ⟨.inl hn.1, hn.2⟩
      · rintro ⟨hn | ⟨-, rfl⟩, hkn⟩
        · exact ⟨hn, hkn⟩
        · exact absurd hkn hk

/-- Removing the node that `last` names forgets its class. -/
theorem listRemove (ht : Table h key last σ) {e n : N} (hk : last (key e) = some n) :
    Table { h with con := listRemove h.con (h.bucket (key e)) (node n) } key
      (fun k => if h.eq k (key e) then none else last k)
      (Function.update σ (h.bucket (key e)) ((σ (h.bucket (key e))).erase n)) := by
  obtain ⟨hn, he⟩ := (ht.last_iff _ n).mp hk
  refine ht.forget (key e) (ht.represents.remove hn) ?_
  intro n'
  rw [(ht.represents.holds _).nodup.mem_erase_iff]
  constructor
  · rintro ⟨hne, hn'⟩
    refine ⟨hn', Bool.eq_false_iff.mpr fun he' => hne ?_⟩
    exact ht.unique _ n' hn' n hn (ht.lawful.equiv.trans (ht.lawful.equiv.symm he') he)
  · rintro ⟨hn', he'⟩
    refine ⟨?_, hn'⟩
    rintro rfl
    rw [he] at he'
    cases he'

/-- `hashtable_remove` returns and forgets the class of its argument. -/
theorem remove (ht : Table h key last σ) (e : N) : ∃ con σ',
    hashtableRemove h key e = some { h with con := con } ∧
      Table { h with con := con } key (fun k => if h.eq k (key e) then none else last k) σ' := by
  unfold hashtableRemove
  rw [ht.search_eq]
  cases hk : last (key e) with
  | none =>
      refine ⟨h.con, σ, by simp [listEnd], ?_⟩
      have hl : (fun k => if h.eq k (key e) then none else last k) = last := by
        funext k
        split_ifs with he
        · rw [ht.last_congr he, hk]
        · rfl
      rw [hl]
      exact ht
  | some n => exact ⟨_, _, by simp [listEnd], ht.listRemove hk⟩

/-- `hashtable_insert` returns and puts its argument in the place of its class. -/
theorem insert (ht : Table h key last σ) {e : N} (he : ∀ b, e ∉ σ b) : ∃ con entries σ',
    hashtableInsert h key e = some { h with con := con, entries := entries } ∧
      Table { h with con := con, entries := entries } key
        (fun k => if h.eq k (key e) then some e else last k) σ' := by
  unfold hashtableInsert
  rw [ht.search_eq]
  cases hk : last (key e) with
  | none => exact ⟨_, h.entries + 1, _, by simp [listEnd], ht.append he hk _⟩
  | some n =>
      have hr := ht.listRemove hk
      have he' : ∀ b, e ∉ Function.update σ (h.bucket (key e)) ((σ (h.bucket (key e))).erase n) b := by
        intro b hb
        by_cases hbb : b = h.bucket (key e)
        · rw [hbb, Function.update_self] at hb
          exact he _ (List.mem_of_mem_erase hb)
        · rw [Function.update_of_ne hbb] at hb
          exact he b hb
      have hl : (fun k => if h.eq k (key e) then some e else if h.eq k (key e) then none else last k) =
          fun k => if h.eq k (key e) then some e else last k := by
        funext k
        split_ifs <;> rfl
      have ha := hr.append he' (if_pos (ht.lawful.equiv.refl _)) h.entries
      refine ⟨_, h.entries, _, ?_, hl ▸ ha⟩
      rw [Option.map_some, Option.map_some, Option.getD_some, if_neg (by simp [listEnd])]
      rfl

/-- Keys of nodes outside the table may change. -/
theorem write (ht : Table h key last σ) {n : N} (hn : ∀ b, n ∉ σ b) (k : K) :
    Table h (Function.update key n k) last σ := by
  have hk : ∀ b, ∀ n' ∈ σ b, Function.update key n k n' = key n' := by
    intro b n' hn'
    exact Function.update_of_ne (ne_of_mem_of_not_mem hn' (hn b)) _ _
  refine ⟨ht.lawful, ht.represents, ?_, ?_, ?_⟩
  · intro b n' hn'
    rw [hk b n' hn']
    exact ht.placed b n' hn'
  · intro b n₁ h₁ n₂ h₂
    rw [hk b n₁ h₁, hk b n₂ h₂]
    exact ht.unique b n₁ h₁ n₂ h₂
  · intro k' n'
    rw [ht.last_iff k' n']
    refine and_congr_right fun hn' => ?_
    rw [hk _ n' hn']

end Table

/-! ### Runs -/

/-- The table, the keys in memory, and for every key the node most recently inserted under an equal
key and neither removed nor replaced since. -/
structure HashState (N K : Type) where
  h : Hashtable N K
  key : N → K
  last : K → Option N

inductive HashOp (N K : Type) where
  | insert (e : N)
  | remove (e : N)
  | write (n : N) (k : K)

/-- The node is linked in some bucket. -/
def Hashtable.Linked (h : Hashtable N K) (n : N) : Prop := ∃ b, n ∈ (forward h.con b).1

namespace HashState

/-- One call on the table, or a write to the key of an object. -/
def step (s : HashState N K) : HashOp N K → Option (HashState N K)
  | .insert e => (hashtableInsert s.h s.key e).map (fun h' =>
      { s with h := h', last := fun k => if s.h.eq k (s.key e) then some e else s.last k })
  | .remove e => (hashtableRemove s.h s.key e).map (fun h' =>
      { s with h := h', last := fun k => if s.h.eq k (s.key e) then none else s.last k })
  | .write n k => some { s with key := Function.update s.key n k }

theorem step_insert {h h' : Hashtable N K} {key : N → K} {last : K → Option N} {e : N}
    (he : hashtableInsert h key e = some h') : step ⟨h, key, last⟩ (.insert e) =
      some ⟨h', key, fun k => if h.eq k (key e) then some e else last k⟩ := by
  rw [step, he]
  rfl

/-- Nodes are inserted, and keys written, only while the node is not linked. -/
def Ok (s : HashState N K) : HashOp N K → Prop
  | .insert e => ¬ s.h.Linked e
  | .remove _ => True
  | .write n _ => ¬ s.h.Linked n

/-- The invariant of every run. -/
def Inv (fn : K → ℕ) (eq : K → K → Bool) (s : HashState N K) : Prop :=
  s.h.fn = fn ∧ s.h.eq = eq ∧ ∃ σ, Table s.h s.key s.last σ

theorem not_linked {s : HashState N K} {σ : Fin s.h.buckets → List N} (ht : Table s.h s.key s.last σ)
    {n : N} (hn : ¬ s.h.Linked n) : ∀ b, n ∉ σ b := by
  intro b hb
  refine hn ⟨b, ?_⟩
  rwa [ht.represents.forward_eq]

theorem inv_init {fn : K → ℕ} {eq : K → K → Bool} (hl : LawfulHash fn eq)
    (con : ListMem (Fin initBuckets) N) (key : N → K) :
    Inv fn eq ⟨hashtableInit con fn eq, key, fun _ => none⟩ := by
  have hf : ∀ b, Initialised (hashtableInit con fn eq).con b :=
    fun b => foldl_listInit con (.inl (List.mem_finRange b))
  refine ⟨rfl, rfl, fun _ => [], hl, .of_fresh fun b => .inl (hf b), ?_, ?_, ?_⟩
  all_goals simp

theorem inv_step {fn : K → ℕ} {eq : K → K → Bool} {s t : HashState N K} {op : HashOp N K}
    (hs : Inv fn eq s) (hok : Ok s op) (hst : step s op = some t) : Inv fn eq t := by
  obtain ⟨rfl, rfl, σ, ht⟩ := hs
  cases op with
  | insert e =>
      obtain ⟨con, entries, σ', he, ht'⟩ := ht.insert (not_linked ht hok)
      rw [step, he] at hst
      cases hst
      exact ⟨rfl, rfl, σ', ht'⟩
  | remove e =>
      obtain ⟨con, σ', he, ht'⟩ := ht.remove e
      rw [step, he] at hst
      cases hst
      exact ⟨rfl, rfl, σ', ht'⟩
  | write n k =>
      cases hst
      exact ⟨rfl, rfl, σ, ht.write (not_linked ht hok) k⟩

end HashState

/-- **The hash table is a finite map.**  In every state that a run of insertions, removals and key
writes reaches from `hashtable_init`, for a hash and an equality that fit together:
`hashtable_find` returns the node most recently inserted under an equal key and neither removed nor
replaced since, `NULL` when there is none; all three operations return; every linked node sits in
bucket `hash % buckets`; no two linked nodes have equal keys. -/
theorem hashtable_finite_map {fn : K → ℕ} {eq : K → K → Bool} (hl : LawfulHash fn eq)
    (con : ListMem (Fin initBuckets) N) (key : N → K) {s : HashState N K}
    (hs : Transition.Reach HashState.step HashState.Ok ⟨hashtableInit con fn eq, key, fun _ => none⟩ s) :
    (∀ e, hashtableFind s.h s.key e = some (((s.last (s.key e)).map node).getD null)) ∧
      (∀ e, (hashtableRemove s.h s.key e).isSome ∧
        (¬ s.h.Linked e → (hashtableInsert s.h s.key e).isSome)) ∧
      (∀ b, ∀ n ∈ (forward s.h.con b).1, b.val = fn (s.key n) % s.h.buckets) ∧
      ∀ n n', s.h.Linked n → s.h.Linked n' → eq (s.key n) (s.key n') = true → n = n' := by
  obtain ⟨rfl, rfl, σ, ht⟩ := hs.invariant (HashState.inv_init hl con key)
    (fun _ _ _ hs hok hst => HashState.inv_step hs hok hst)
  refine ⟨ht.find_eq, ?_, ?_, ?_⟩
  · intro e
    obtain ⟨con', σ', he, -⟩ := ht.remove e
    refine ⟨by rw [he]; rfl, fun hn => ?_⟩
    obtain ⟨con', entries', σ', he', -⟩ := ht.insert (HashState.not_linked ht hn)
    rw [he']
    rfl
  · intro b n hn
    rw [ht.represents.forward_eq] at hn
    rw [ht.placed b n hn]
    rfl
  · rintro n n' ⟨b, hn⟩ ⟨b', hn'⟩ he
    rw [ht.represents.forward_eq] at hn hn'
    have hbb : b = b' := by rw [ht.placed b n hn, ht.placed b' n' hn', ht.bucket_eq he]
    subst hbb
    exact ht.unique b n hn n' hn' he

/-- Keys hashed and compared modulo `3`: the node inserted second replaces the first. -/
theorem hashtable_finite_map_replace :
    let con : ListMem (Fin initBuckets) ℕ := ⟨fun _ => null, fun _ => null, fun _ => 0⟩
    let h₀ := hashtableInit con (fun k => k % 3) (fun a b => a % 3 == b % 3)
    let h₁ := { h₀ with con := listPushBack h₀.con (h₀.bucket 4) (node 4), entries := 1 }
    let h₂ := { h₁ with con := listPushBack (listRemove h₁.con (h₁.bucket 7) (node 4)) (h₁.bucket 7) (node 7) }
    hashtableInsert h₀ id 4 = some h₁ ∧ hashtableInsert h₁ id 7 = some h₂ ∧
      hashtableFind h₂ id 1 = some (node 7) := by
  intro con h₀ h₁ h₂
  have hl : LawfulHash (fun k : ℕ => k % 3) (fun a b => a % 3 == b % 3) := by
    refine ⟨⟨?_, ?_, ?_⟩, ?_⟩ <;> simp +contextual
  have i₁ : hashtableInsert h₀ id 4 = some h₁ := rfl
  have i₂ : hashtableInsert h₁ id 7 = some h₂ := rfl
  have hn₁ : ¬ h₀.Linked 4 := by
    rintro ⟨b, hb⟩
    revert b
    decide
  have hn₂ : ¬ h₁.Linked 7 := by
    rintro ⟨b, hb⟩
    revert b
    decide
  have r₀ : Transition.Reach HashState.step HashState.Ok ⟨h₀, id, fun _ => none⟩ ⟨h₀, id, fun _ => none⟩ :=
    .start
  have r₁ := r₀.next (a := HashOp.insert 4) hn₁ (HashState.step_insert i₁)
  have r₂ := r₁.next (a := HashOp.insert 7) hn₂ (HashState.step_insert i₂)
  exact ⟨i₁, i₂, (hashtable_finite_map hl con id r₂).1 1⟩

end Dunkos
