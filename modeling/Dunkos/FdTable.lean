import Dunkos.Hashtable
import Dunkos.Bitmap
import Mathlib.Data.List.Find

/-! # File descriptors (`fdtable.c`)

A table of file descriptors is a hash table from numbers to structs and a bitmap of the numbers.
`fdtable_open` links a new struct while its number is still zero, and gives it the number afterwards: the
struct stays in the bucket of zero, and the next one that is opened is equal to a struct with number zero
and takes its place.  It also looks for a bit that is set, where the bits that are set stand for the
numbers in use.  `fdtable_free` frees the struct and leaves it linked.

`fdtable_open_right_iff` says for how many calls of `fdtable_open` the numbers and the lookups are right,
and `fdtable_free_wrong` that no `fdtable_free` is. -/

namespace Dunkos

open Elem

/-! ### Elements of a table -/

section
variable {N K : Type} [DecidableEq N]

/-- The elements that `hashtable_foreach` comes to, when the action leaves their `next` alone; none when
the walk over a bucket does not come to its end. -/
def hashtableForeach (h : Hashtable N K) : Option (List N) :=
  if ∀ b, (forward h.con b).2 = listEnd h.con b then
    some ((List.finRange h.buckets).flatMap fun b => (forward h.con b).1)
  else none

variable {h : Hashtable N K} {k : N → K} {σ : Fin h.buckets → List N}

theorem hashtableFind_represents (hr : Represents h.con σ) (e : N) : hashtableFind h k e =
    some ((((σ (h.bucket (k e))).find? fun n => h.eq (k e) (k n)).map node).getD null) := by
  unfold hashtableFind Hashtable.search
  rw [bucketSearch_holds (hr.holds _)]
  cases (σ (h.bucket (k e))).find? fun n => h.eq (k e) (k n) <;> simp [listEnd]

/-- The elements of all buckets. -/
theorem hashtableForeach_represents (hr : Represents h.con σ) :
    hashtableForeach h = some ((List.finRange h.buckets).flatMap σ) := by
  unfold hashtableForeach
  rw [if_pos fun b => congrArg Prod.snd (hr.forward_eq b)]
  refine congrArg some (List.flatMap_congr fun b _ => ?_)
  exact congrArg Prod.fst (hr.forward_eq b)

namespace Table
variable {key : N → K} {last : K → Option N}

omit [DecidableEq N] in
/-- The elements are those that are found by their keys. -/
theorem mem_elements (ht : Table h key last σ) {n : N} :
    n ∈ (List.finRange h.buckets).flatMap σ ↔ last (key n) = some n := by
  rw [List.mem_flatMap, ht.last_iff]
  constructor
  · rintro ⟨b, -, hb⟩
    exact ⟨ht.placed b n hb ▸ hb, ht.lawful.equiv.refl _⟩
  · exact fun hn => ⟨_, List.mem_finRange _, hn.1⟩

omit [DecidableEq N] in
theorem elements_nodup (ht : Table h key last σ) : ((List.finRange h.buckets).flatMap σ).Nodup := by
  rw [List.nodup_flatMap]
  refine ⟨fun b _ => (ht.represents.holds b).nodup, (List.nodup_finRange _).imp fun {b b'} hne => ?_⟩
  exact fun n hn hn' => ht.represents.disjoint b b' hne n hn hn'

end Table

/-- `hashtable_insert` takes the first equal element out of the bucket, if there is one, and appends. -/
theorem hashtableInsert_represents (hr : Represents h.con σ) {e : N} (he : ∀ b, e ∉ σ b) : ∃ con entries,
    hashtableInsert h k e = some { h with con := con, entries := entries } ∧
      Represents con (Function.update σ (h.bucket (k e))
        ((((σ (h.bucket (k e))).find? fun n => h.eq (k e) (k n)).elim (σ (h.bucket (k e)))
          (σ (h.bucket (k e))).erase) ++ [e])) := by
  unfold hashtableInsert Hashtable.search
  rw [bucketSearch_holds (hr.holds _)]
  cases hf : (σ (h.bucket (k e))).find? fun n => h.eq (k e) (k n) with
  | none =>
      refine ⟨listPushBack h.con (h.bucket (k e)) (node e), h.entries + 1, by simp [listEnd], ?_⟩
      exact hr.pushBack _ he
  | some n =>
      have hr' := hr.remove (List.mem_of_find?_eq_some hf)
      have he' : ∀ b, e ∉ Function.update σ (h.bucket (k e)) ((σ (h.bucket (k e))).erase n) b := by
        intro b hb
        by_cases hbb : b = h.bucket (k e)
        · rw [hbb, Function.update_self] at hb
          exact he _ (List.mem_of_mem_erase hb)
        · rw [Function.update_of_ne hbb] at hb
          exact he b hb
      refine ⟨listPushBack (listRemove h.con (h.bucket (k e)) (node n)) (h.bucket (k e)) (node e), h.entries, ?_, ?_⟩
      · rw [Option.map_some, Option.map_some, Option.getD_some, if_neg (by simp [listEnd])]
      · have hp := hr'.pushBack (h.bucket (k e)) he'
        rw [Function.update_self, Function.update_idem] at hp
        exact hp

/-- The search only finds elements that a walk over the bucket comes to. -/
theorem searchLoop_mem {L : Type} [DecidableEq L] {m : ListMem L N} {bucket : L} {eq : N → Bool} {k : ℕ} {p : Elem L N}
    {xs : List N} {n : N} (hw : Linked.follow m.next Elem.node? k p = (xs, tail bucket))
    (hs : searchLoop m bucket eq (k + 1) p = some (node n)) : n ∈ xs := by
  induction k generalizing p xs with
  | zero =>
      obtain ⟨-, rfl⟩ := Prod.mk.injEq .. ▸ hw
      simp [searchLoop, listEnd] at hs
  | succ k ih =>
      unfold searchLoop at hs
      split_ifs at hs with hp
      · rw [Option.some.inj hs] at hp
        cases hp
      · cases p with
        | node x =>
            obtain ⟨rfl, hw'⟩ := Prod.mk.injEq .. ▸ hw
            rw [node?_node, Option.bind_some] at hs
            split_ifs at hs with hx
            · cases hs
              exact List.mem_cons_self
            · refine List.mem_cons_of_mem _ (ih ?_ hs)
              exact Prod.ext rfl hw'
        | null => cases hs
        | head l => cases hs
        | tail l => cases hs

/-- What is found is among the elements that `hashtable_foreach` comes to. -/
theorem mem_foreach_of_find {e n : N} {ns : List N} (hf : hashtableFind h k e = some (node n))
    (hns : hashtableForeach h = some ns) : n ∈ ns := by
  unfold hashtableForeach at hns
  split_ifs at hns with hends
  rw [← Option.some.inj hns, List.mem_flatMap]
  unfold hashtableFind at hf
  rw [Option.map_eq_some_iff] at hf
  obtain ⟨b_el, hsearch, hel⟩ := hf
  split_ifs at hel with hend
  rw [hel] at hsearch
  exact ⟨h.bucket (k e), List.mem_finRange _, searchLoop_mem (Prod.ext rfl (hends _)) hsearch⟩

end

/-! ### The table -/

def hashUint64 (h : BitVec 64) : BitVec 64 :=
  let h := h ^^^ (h >>> 33)
  let h := h * 0xFF51AFD7ED558CCD#64
  let h := h ^^^ (h >>> 33)
  let h := h * 0xC4CEB9FE1A85EC53#64
  h ^^^ (h >>> 33)

/-- The number is an `int`, and is sign-extended. -/
def hashFd (fd : BitVec 32) : ℕ := (hashUint64 (fd.signExtend 64)).toNat

def fdIdentity (leftfd rightfd : BitVec 32) : Bool := leftfd == rightfd

/-- `FDTYPE_FILE` is zero. -/
inductive FdType where
  | file
  | mem
  | net
deriving DecidableEq, Repr

structure Fd where
  fd : BitVec 32
  type : FdType
  ioObject : ℕ

/-- `struct fdtable` and the structs in the heap.  `kcalloc` returns `next`; `freed` are the structs given
to `kfree`, and `closed` the files given to `file_close`. -/
structure FdTable where
  fdmap : Hashtable ℕ (BitVec 32)
  freefdmap : Bitmap
  fds : ℕ → Fd
  next : ℕ
  freed : List ℕ
  closed : List ℕ

/-- `con` and `words` are what the memory holds that `kcalloc` and `kmalloc` return. -/
def createFdtable (con : ListMem (Fin initBuckets) ℕ) (words : ℕ → BitVec 64) (fds : ℕ → Fd) (cnt : ℕ)
    (h : cnt < 2 ^ 64) : FdTable where
  fdmap := hashtableInit con hashFd fdIdentity
  freefdmap := bitmapSet (bitmapCreate cnt h words) 0 3 true
  fds := fds
  next := 0
  freed := []
  closed := []

/-- `file` is what `open_file` returns.  The number is assigned last. -/
def fdtableOpen (t : FdTable) (file : ℕ) : Option (FdTable × ℕ) :=
  let fds := Function.update t.fds t.next ⟨0, .file, 0⟩
  (hashtableInsert t.fdmap (fun n => (fds n).fd) t.next).map fun fdmap =>
    let r := bitmapScanAndFlip t.freefdmap 0 1 true
    ({ t with
        fdmap := fdmap
        freefdmap := r.2
        fds := Function.update fds t.next ⟨BitVec.ofNat 32 r.1, .file, file⟩
        next := t.next + 1 },
      t.next)

/-- The key is a struct on the stack, none of those in the heap. -/
def fdtableLookupfd (t : FdTable) (fd : BitVec 32) : Option (Option ℕ) :=
  (hashtableFind t.fdmap (fun n => if n = t.next then fd else (t.fds n).fd) t.next).map Elem.node?

/-- What `kfree` leaves of a struct: a link of the heap's free list lies over `fd`, `type` and
`bucket_elem.prev`. -/
structure FreeLink where
  fd : BitVec 32
  type : FdType
  prev : (b : ℕ) → Elem (Fin b) ℕ

def kfreeFd (link : FreeLink) (t : FdTable) (fd : ℕ) : FdTable :=
  { t with
    fdmap := { t.fdmap with con := t.fdmap.con.setPrev (node fd) (link.prev t.fdmap.buckets) }
    fds := Function.update t.fds fd { t.fds fd with fd := link.fd, type := link.type }
    freed := fd :: t.freed }

def fdFree (link : FreeLink) (t : FdTable) (fd : ℕ) : FdTable :=
  kfreeFd link (match (t.fds fd).type with
    | .file => { t with closed := (t.fds fd).ioObject :: t.closed }
    | _ => t) fd

/-- There is no struct to free at NULL. -/
def fdtableFree (link : FreeLink) (t : FdTable) (fd : BitVec 32) : Option FdTable :=
  (fdtableLookupfd t fd).bind fun r => r.map (fdFree link t)

def fdtableDestroy (link : FreeLink) (t : FdTable) : Option FdTable :=
  (hashtableForeach t.fdmap).map fun fds => fds.foldl (fdFree link) t

/-- Calls of `fdtable_open`, and the structs returned. -/
def opens : List ℕ → FdTable → Option (FdTable × List ℕ)
  | [], t => some (t, [])
  | file :: files, t => (fdtableOpen t file).bind fun r => (opens files r.1).map fun s => (s.1, r.2 :: s.2)

/-! ### Opening -/

/-- The number that call `i` returns, from zero on. -/
def numberOf (i : ℕ) : BitVec 32 := if i < 3 then BitVec.ofNat 32 i else BitVec.allOnes 32

/-- The structs linked after `k` calls. -/
def linkedAfter : ℕ → List ℕ
  | 0 => []
  | 1 => [0]
  | k + 2 => List.range' 1 (k + 1)

/-- The table after `k` calls: of the reserved numbers those from `k` on are left, and all structs are in
the bucket of zero.  `bitmap_create` clears all bits when the size of its buffer does not wrap around. -/
structure AfterOpens (n k : ℕ) (t : FdTable) : Prop where
  fn : t.fdmap.fn = hashFd
  eq : t.fdmap.eq = fdIdentity
  next : t.next = k
  number : ∀ i, i < k → (t.fds i).fd = numberOf i
  bitcount : t.freefdmap.bitcount = n
  bits : ∀ i, i < n → i < 3 ∨ n + 7 < 2 ^ 64 → (bitmapTest t.freefdmap i = true ↔ k ≤ i ∧ i < 3)
  linked : ∃ σ : Fin t.fdmap.buckets → List ℕ, Represents t.fdmap.con σ ∧ σ (t.fdmap.bucket 0) = linkedAfter k ∧
    ∀ b, b ≠ t.fdmap.bucket 0 → σ b = []

theorem numberOf_eq_zero {i : ℕ} : numberOf i = 0 ↔ i = 0 := by
  rcases i with _ | _ | _ | i
  · exact ⟨fun _ => rfl, fun _ => rfl⟩
  · exact ⟨fun h => absurd h (by decide), fun h => by omega⟩
  · exact ⟨fun h => absurd h (by decide), fun h => by omega⟩
  · unfold numberOf
    rw [if_neg (by omega)]
    exact ⟨fun h => absurd h (by decide), fun h => by omega⟩

theorem lt_of_mem_linkedAfter {k i : ℕ} (h : i ∈ linkedAfter k) : i < k := by
  match k with
  | 0 => cases h
  | 1 =>
      rw [List.mem_singleton.mp h]
      exact Nat.one_pos
  | k + 2 =>
      obtain ⟨j, hj, rfl⟩ := List.mem_range'.mp h
      omega

/-- The struct with number zero is replaced, once there is another. -/
theorem linkedAfter_succ (k : ℕ) :
    ((linkedAfter k).find? fun i => fdIdentity 0 (numberOf i)).elim (linkedAfter k) (linkedAfter k).erase ++ [k] =
      linkedAfter (k + 1) := by
  match k with
  | 0 => rfl
  | 1 => rfl
  | k + 2 =>
      have hnone : (linkedAfter (k + 2)).find? (fun i => fdIdentity 0 (numberOf i)) = none := by
        rw [List.find?_eq_none]
        intro i hi he
        obtain ⟨j, -, rfl⟩ := List.mem_range'.mp hi
        have h0 : numberOf (1 + 1 * j) = 0 := (beq_iff_eq.mp he).symm
        have := numberOf_eq_zero.mp h0
        omega
      rw [hnone, Option.elim_none]
      show List.range' 1 (k + 1) ++ [k + 2] = List.range' 1 (k + 2)
      rw [List.range'_1_concat (n := k + 1), Nat.add_comm 1 (k + 1)]

namespace AfterOpens
variable {n k : ℕ} {t : FdTable}

/-- The numbers that a call can take. -/
theorem runAt_iff (h : AfterOpens n k t) (hn : 3 < n) {i : ℕ} (hi3 : i < 3 ∨ n + 7 < 2 ^ 64) :
    t.freefdmap.RunAt 1 true i ↔ k ≤ i ∧ i < 3 := by
  constructor
  · intro hi
    have hlt := hi.lt
    rw [h.bitcount] at hlt
    exact (h.bits i hlt hi3).mp (hi.eq i ⟨Nat.le_refl i, Nat.lt_succ_self i⟩)
  · intro hi
    refine ⟨by rw [h.bitcount]; omega, by rw [h.bitcount]; omega, fun j hj => ?_⟩
    have hji : j = i := by
      have h₁ : i ≤ j := hj.1
      have h₂ : j < i + 1 := hj.2
      omega
    exact hji ▸ (h.bits i (by omega) hi3).mpr hi

/-- `fdtable_open` takes the first reserved number, or the number `-1` when none is left. -/
theorem scan (h : AfterOpens n k t) (hn : 3 < n) (hk : k < 3 ∨ n + 7 < 2 ^ 64) :
    BitVec.ofNat 32 (bitmapScanAndFlip t.freefdmap 0 1 true).1 = numberOf k ∧
      (bitmapScanAndFlip t.freefdmap 0 1 true).2.bitcount = n ∧
      ∀ i, i < n → i < 3 ∨ n + 7 < 2 ^ 64 →
        (bitmapTest (bitmapScanAndFlip t.freefdmap 0 1 true).2 i = true ↔ k + 1 ≤ i ∧ i < 3) := by
  have hrun : ∀ i, i < 3 ∨ n + 7 < 2 ^ 64 → (t.freefdmap.RunAt 1 true i ↔ k ≤ i ∧ i < 3) :=
    fun i hi3 => h.runAt_iff hn hi3
  rcases bitmapScanAndFlip_spec t.freefdmap 0 1 true with ⟨he, hno⟩ | ⟨r, he, -, -, hr, hfirst⟩
  · have hk3 : ¬ k < 3 := fun hk3 => hno k (Nat.zero_le _) ((hrun k (.inl hk3)).mpr ⟨Nat.le_refl k, hk3⟩)
    rw [he]
    refine ⟨?_, h.bitcount, fun i hi hi3 => (h.bits i hi hi3).trans ?_⟩
    · unfold numberOf
      rw [if_neg hk3]
      show BitVec.ofNat 32 bitmapNpos = BitVec.allOnes 32
      decide
    · omega
  · have hr3 : r < 3 ∨ n + 7 < 2 ^ 64 := by
      rcases hk with hk | hk
      · by_contra hr3
        exact hfirst k (Nat.zero_le _) (by omega) ((hrun k (.inl hk)).mpr ⟨Nat.le_refl k, hk⟩)
      · exact .inr hk
    obtain ⟨hkr, hr3⟩ := (hrun r hr3).mp hr
    have hkr' : r = k := by
      by_contra hne
      exact hfirst k (Nat.zero_le _) (by omega) ((hrun k (.inl (by omega))).mpr ⟨Nat.le_refl k, by omega⟩)
    subst hkr'
    rw [he]
    refine ⟨?_, (bitmapFlip_bitcount _ _ _).trans h.bitcount, fun i hi hi3 => ?_⟩
    · unfold numberOf
      rw [if_pos hr3]
    · have hbit := h.bits i hi hi3
      simp only [bitmapFlip_test, Extent.covers_mk, h.bitcount]
      by_cases hir : i = r
      · subst hir
        rw [if_pos ⟨⟨Nat.le_refl i, Nat.lt_succ_self i⟩, hi⟩, hbit.mpr ⟨Nat.le_refl i, hr3⟩]
        simp
      · rw [if_neg (by omega), hbit]
        omega

/-- One more call. -/
theorem step (h : AfterOpens n k t) (hn : 3 < n) (hk : k < 3 ∨ n + 7 < 2 ^ 64) (file : ℕ) :
    ∃ t', fdtableOpen t file = some (t', k) ∧ AfterOpens n (k + 1) t' := by
  obtain ⟨σ, hr, hzero, hother⟩ := h.linked
  obtain ⟨hnum, hcount, hbits⟩ := h.scan hn hk
  have hself : (Function.update t.fds t.next ⟨0, .file, 0⟩ t.next).fd = 0 := by rw [Function.update_self]
  have hnew : ∀ b, t.next ∉ σ b := by
    intro b hb
    by_cases hb₀ : b = t.fdmap.bucket 0
    · rw [hb₀, hzero, h.next] at hb
      exact Nat.lt_irrefl _ (lt_of_mem_linkedAfter hb)
    · rw [hother b hb₀] at hb
      cases hb
  obtain ⟨con, entries, hins, hr'⟩ :=
    hashtableInsert_represents (k := fun i => (Function.update t.fds t.next ⟨0, .file, 0⟩ i).fd) hr hnew
  rw [hself, hzero, h.eq] at hr'
  have hfind : (linkedAfter k).find? (fun i => fdIdentity 0 (Function.update t.fds t.next ⟨0, .file, 0⟩ i).fd) =
      (linkedAfter k).find? (fun i => fdIdentity 0 (numberOf i)) := by
    apply List.find?_congr
    intro i hi
    have hik := lt_of_mem_linkedAfter hi
    rw [Function.update_of_ne (by rw [h.next]; omega), h.number i hik]
  rw [hfind, h.next, linkedAfter_succ] at hr'
  refine ⟨{ t with
    fdmap := { t.fdmap with con := con, entries := entries }
    freefdmap := (bitmapScanAndFlip t.freefdmap 0 1 true).2
    fds := Function.update (Function.update t.fds t.next ⟨0, .file, 0⟩) t.next
      ⟨BitVec.ofNat 32 (bitmapScanAndFlip t.freefdmap 0 1 true).1, .file, file⟩
    next := t.next + 1 }, ?_, ?_⟩
  · unfold fdtableOpen
    dsimp only
    rw [hins, Option.map_some, h.next]
  · refine ⟨h.fn, h.eq, congrArg (· + 1) h.next, fun i hi => ?_, hcount, hbits, _, hr', Function.update_self ..,
      fun b hb => (Function.update_of_ne hb _ _).trans (hother b hb)⟩
    rw [h.next, Function.update_idem]
    by_cases hik : i = k
    · rw [hik]
      exact (congrArg Fd.fd (Function.update_self ..)).trans hnum
    · exact (congrArg Fd.fd (Function.update_of_ne hik _ _)).trans (h.number i (by omega))

/-- A call of `fdtable_lookupfd` for the number zero. -/
theorem lookup_zero (h : AfterOpens n k t) :
    fdtableLookupfd t 0 = some ((linkedAfter k).find? fun i => fdIdentity 0 (numberOf i)) := by
  obtain ⟨σ, hr, hzero, -⟩ := h.linked
  unfold fdtableLookupfd
  rw [hashtableFind_represents hr, if_pos rfl, hzero, h.eq, Option.map_some]
  have hfind : (linkedAfter k).find? (fun i => fdIdentity 0 (if i = t.next then 0 else (t.fds i).fd)) =
      (linkedAfter k).find? (fun i => fdIdentity 0 (numberOf i)) := by
    apply List.find?_congr
    intro i hi
    have hik := lt_of_mem_linkedAfter hi
    rw [if_neg (by rw [h.next]; omega), h.number i hik]
  rw [hfind]
  cases (linkedAfter k).find? fun i => fdIdentity 0 (numberOf i) <;> rfl

end AfterOpens

/-- The empty table, with the three numbers reserved. -/
theorem afterOpens_create (con : ListMem (Fin initBuckets) ℕ) (words : ℕ → BitVec 64) (fds : ℕ → Fd) {n : ℕ}
    (h : n < 2 ^ 64) : AfterOpens n 0 (createFdtable con words fds n h) where
  fn := rfl
  eq := rfl
  next := rfl
  number i hi := absurd hi (Nat.not_lt_zero i)
  bitcount := bitmapSet_bitcount _ _ _ _
  bits i hi hi3 := by
    show bitmapTest (bitmapSet (bitmapCreate n h words) 0 3 true) i = true ↔ _
    have hlt : i < (bitmapCreate n h words).bitcount := hi
    simp only [bitmapSet_test, Extent.covers_mk, hlt, and_true]
    split_ifs with hc
    · simp only [true_iff]
      omega
    · rw [bitmapCreate_test h words (hi3.resolve_left (by omega)) hi]
      simp only [Bool.false_eq_true, false_iff]
      omega
  linked := by
    refine ⟨fun _ => [], .of_fresh fun b => .inl ?_, rfl, fun _ _ => rfl⟩
    exact foldl_listInit con (.inl (List.mem_finRange b))

/-- Any number of calls. -/
theorem AfterOpens.opens {n k : ℕ} {t : FdTable} (h : AfterOpens n k t) (hn : 3 < n) (files : List ℕ)
    (hk : k + files.length ≤ 3 ∨ n + 7 < 2 ^ 64) :
    ∃ t', Dunkos.opens files t = some (t', List.range' k files.length) ∧ AfterOpens n (k + files.length) t' := by
  induction files generalizing k t with
  | nil => exact ⟨t, rfl, h⟩
  | cons file files ih =>
      rw [List.length_cons] at hk
      obtain ⟨t₁, h₁, ha₁⟩ := h.step hn (hk.imp_left (by omega)) file
      obtain ⟨t', h', ha'⟩ := ih ha₁ (hk.imp_left (by omega))
      refine ⟨t', ?_, ?_⟩
      · unfold Dunkos.opens
        rw [h₁, Option.bind_some, h', Option.map_some]
        rfl
      · rw [List.length_cons, Nat.add_comm files.length 1, ← Nat.add_assoc]
        exact ha'

/-- The structs `fds` have numbers in the range of the table that are not reserved, no two the same. -/
def NumbersRight (n : ℕ) (t : FdTable) (fds : List ℕ) : Prop :=
  (∀ f ∈ fds, 3 ≤ (t.fds f).fd.toInt ∧ (t.fds f).fd.toInt < n) ∧ (fds.map fun f => (t.fds f).fd).Nodup

/-- `fdtable_lookupfd` comes to each of the structs `fds` by its number. -/
def LookupsRight (t : FdTable) (fds : List ℕ) : Prop :=
  ∀ f ∈ fds, fdtableLookupfd t (t.fds f).fd = some (some f)

theorem numbersRight_nil (n : ℕ) (t : FdTable) : NumbersRight n t [] :=
  ⟨fun _ hf => absurd hf List.not_mem_nil, List.nodup_nil⟩

theorem lookupsRight_nil (t : FdTable) : LookupsRight t [] := fun _ hf => absurd hf List.not_mem_nil

/-- The first call returns number zero. -/
theorem AfterOpens.not_numbersRight {n : ℕ} {t : FdTable} (h : AfterOpens n 1 t) : ¬ NumbersRight n t [0] := by
  intro hnum
  have h3 := (hnum.1 0 (by simp)).1
  rw [h.number 0 (by decide)] at h3
  exact absurd h3 (by decide)

theorem AfterOpens.lookupsRight {n : ℕ} {t : FdTable} (h : AfterOpens n 1 t) : LookupsRight t [0] := by
  intro f hf
  obtain rfl : f = 0 := by simpa using hf
  rw [h.number 0 (by decide)]
  exact h.lookup_zero

/-- The second struct takes the place of the first. -/
theorem AfterOpens.not_lookupsRight {n : ℕ} {t : FdTable} (h : AfterOpens n 2 t) : ¬ LookupsRight t [0, 1] := by
  intro hlook
  have h0 := hlook 0 (by simp)
  rw [h.number 0 (by decide)] at h0
  have hlinked : (linkedAfter 2).find? (fun i => fdIdentity 0 (numberOf i)) = some 0 :=
    Option.some.inj (h.lookup_zero.symm.trans h0)
  exact absurd hlinked (by decide)

/-- **`fdtable_open` on a new table.**  The numbers and the lookups are right after each of the calls only
when there is no call: the first one returns number zero.  The lookups alone are right after each call
only for one call: the second struct takes the place of the first. -/
theorem fdtable_open_right_iff (con : ListMem (Fin initBuckets) ℕ) (words : ℕ → BitVec 64) (fds₀ : ℕ → Fd) {n : ℕ}
    (h : n < 2 ^ 64) (files : List ℕ) (hfiles : files.length + 3 ≤ n) :
    ((∀ calls, calls <+: files → ∃ t fds, opens calls (createFdtable con words fds₀ n h) = some (t, fds) ∧
        NumbersRight n t fds ∧ LookupsRight t fds) ↔ files = []) ∧
      ((∀ calls, calls <+: files → ∃ t fds, opens calls (createFdtable con words fds₀ n h) = some (t, fds) ∧
        LookupsRight t fds) ↔ files.length ≤ 1) := by
  have h₀ := afterOpens_create con words fds₀ h
  constructor
  · constructor
    · intro hright
      cases files with
      | nil => rfl
      | cons file files =>
          obtain ⟨t, ht, ha⟩ := h₀.opens (by simp at hfiles; omega) [file] (.inl (by simp))
          obtain ⟨t', fds, ht', hnum, -⟩ := hright [file] ⟨files, rfl⟩
          obtain ⟨rfl, rfl⟩ := Prod.mk.inj (Option.some.inj (ht.symm.trans ht'))
          exact absurd hnum ha.not_numbersRight
    · rintro rfl calls hcalls
      rw [List.prefix_nil.mp hcalls]
      exact ⟨_, [], rfl, numbersRight_nil n _, lookupsRight_nil _⟩
  · constructor
    · intro hright
      match files with
      | [] => exact Nat.zero_le 1
      | [file] => exact Nat.le_refl 1
      | file₁ :: file₂ :: files =>
          obtain ⟨t, ht, ha⟩ := h₀.opens (by simp at hfiles; omega) [file₁, file₂] (.inl (by simp))
          obtain ⟨t', fds, ht', hlook⟩ := hright [file₁, file₂] ⟨files, rfl⟩
          obtain ⟨rfl, rfl⟩ := Prod.mk.inj (Option.some.inj (ht.symm.trans ht'))
          exact absurd hlook ha.not_lookupsRight
    · intro hlen calls hcalls
      match calls with
      | [] => exact ⟨_, [], rfl, lookupsRight_nil _⟩
      | [file] =>
          have := hcalls.length_le
          obtain ⟨t, ht, ha⟩ := h₀.opens (by simp at this; omega) [file] (.inl (by simp))
          exact ⟨t, _, ht, ha.lookupsRight⟩
      | file₁ :: file₂ :: calls =>
          have := hcalls.length_le
          simp at this
          omega

/-- A table of 128 numbers, where `kcalloc` and `kmalloc` return cleared memory. -/
def freshTable : FdTable :=
  createFdtable ⟨fun _ => null, fun _ => null, fun _ => 0⟩ (fun _ => 0) (fun _ => ⟨0, .file, 0⟩) 128 (by decide)

theorem fdtable_open_right_iff_two :
    [7, 8].length + 3 ≤ 128 ∧
      ((∀ calls, calls <+: [7, 8] → ∃ t fds, opens calls freshTable = some (t, fds) ∧
        NumbersRight 128 t fds ∧ LookupsRight t fds) ↔ [7, 8] = ([] : List ℕ)) :=
  ⟨by decide, (fdtable_open_right_iff _ _ _ (by decide) [7, 8] (by decide)).1⟩

/-- Two files are opened: they get the numbers zero and one, and the number of the first one is not found. -/
theorem fdtable_open_evicts :
    (opens [7, 8] freshTable).map (fun r => (r.2, r.2.map fun f => (r.1.fds f).fd)) = some ([0, 1], [0, 1]) ∧
      (opens [7, 8] freshTable).bind (fun r => fdtableLookupfd r.1 0) = some none := by
  decide

/-! ### Closing -/

theorem fdFree_freed (link : FreeLink) (t : FdTable) (fd : ℕ) : (fdFree link t fd).freed = fd :: t.freed := by
  unfold fdFree kfreeFd
  cases (t.fds fd).type <;> rfl

theorem fdFree_freefdmap (link : FreeLink) (t : FdTable) (fd : ℕ) : (fdFree link t fd).freefdmap = t.freefdmap := by
  unfold fdFree kfreeFd
  cases (t.fds fd).type <;> rfl

/-- The links that a walk over the table follows are left as they were. -/
theorem fdFree_foreach (link : FreeLink) (t : FdTable) (fd : ℕ) :
    hashtableForeach (fdFree link t fd).fdmap = hashtableForeach t.fdmap := by
  unfold fdFree kfreeFd
  cases (t.fds fd).type <;> rfl

theorem foldl_fdFree_freed (link : FreeLink) (t : FdTable) (fds : List ℕ) :
    (fds.foldl (fdFree link) t).freed = fds.reverse ++ t.freed := by
  induction fds generalizing t with
  | nil => rfl
  | cons fd fds ih => rw [List.foldl_cons, ih, fdFree_freed, List.reverse_cons, List.append_assoc, List.singleton_append]

/-- What a lookup finds is among the structs that `fdtable_destroy` frees. -/
theorem mem_foreach_of_lookup {t : FdTable} {fd : BitVec 32} {f : ℕ} {fds : List ℕ}
    (hf : fdtableLookupfd t fd = some (some f)) (hfds : hashtableForeach t.fdmap = some fds) : f ∈ fds := by
  unfold fdtableLookupfd at hf
  rw [Option.map_eq_some_iff] at hf
  obtain ⟨b_el, hfind, hel⟩ := hf
  cases b_el with
  | node n =>
      rw [Option.some.inj hel] at hfind
      exact mem_foreach_of_find hfind hfds
  | null => cases hel
  | head b => cases hel
  | tail b => cases hel

/-- What `fdtable_free(t, fd)` is for, where it leads to `t'`. -/
structure Closes (link : FreeLink) (t t' : FdTable) (fd : BitVec 32) : Prop where
  unreachable : fdtableLookupfd t' fd = some none
  reusable : ∃ files t'' fds, opens files t' = some (t'', fds) ∧ ∃ f ∈ fds, (t''.fds f).fd = fd
  others : ∀ fd' f, fd' ≠ fd → fdtableLookupfd t fd' = some (some f) → fdtableLookupfd t' fd' = some (some f)
  destroyed : ∃ t'', fdtableDestroy link t' = some t'' ∧ ∀ fd' f, fdtableLookupfd t fd' = some (some f) →
    t''.freed.count f = t.freed.count f + 1

/-- **`fdtable_free` of an open descriptor.**  It frees the struct and does not make its number free, and
leaves it linked: `fdtable_destroy` frees it again. -/
theorem fdtable_free_wrong (link : FreeLink) (t : FdTable) (fd : BitVec 32) (f : ℕ)
    (hf : fdtableLookupfd t fd = some (some f)) : ∃ t', fdtableFree link t fd = some t' ∧
      ¬ Closes link t t' fd ∧ t'.freefdmap = t.freefdmap ∧
      hashtableForeach t'.fdmap = hashtableForeach t.fdmap ∧
      ∀ t'', fdtableDestroy link t' = some t'' → t.freed.count f + 2 ≤ t''.freed.count f := by
  have htwice : ∀ t'', fdtableDestroy link (fdFree link t f) = some t'' →
      t.freed.count f + 2 ≤ t''.freed.count f := by
    intro t'' h
    unfold fdtableDestroy at h
    rw [fdFree_foreach, Option.map_eq_some_iff] at h
    obtain ⟨fds, hfds, rfl⟩ := h
    have hone : 1 ≤ fds.count f := List.one_le_count_iff.mpr (mem_foreach_of_lookup hf hfds)
    rw [foldl_fdFree_freed, fdFree_freed, List.count_append, List.count_reverse, List.count_cons_self]
    omega
  refine ⟨fdFree link t f, ?_, fun hc => ?_, fdFree_freefdmap link t f, fdFree_foreach link t f, htwice⟩
  · unfold fdtableFree
    rw [hf]
    rfl
  · obtain ⟨t'', hd, hcount⟩ := hc.destroyed
    have := htwice t'' hd
    rw [hcount fd f hf] at this
    omega

/-- The table after a file is opened. -/
def oneFile : FdTable := ((opens [7] freshTable).map Prod.fst).getD freshTable

theorem fdtable_free_wrong_zero :
    fdtableLookupfd oneFile 0 = some (some 0) ∧ ∃ t', fdtableFree ⟨0, .file, fun _ => null⟩ oneFile 0 = some t' ∧
      ¬ Closes ⟨0, .file, fun _ => null⟩ oneFile t' 0 :=
  ⟨by decide, by
    obtain ⟨t', h₁, h₂, -⟩ := fdtable_free_wrong ⟨0, .file, fun _ => null⟩ oneFile 0 0 (by decide)
    exact ⟨t', h₁, h₂⟩⟩

/-- A file is opened and closed, and the table destroyed: the struct is freed twice. -/
theorem fdtable_free_twice :
    ((fdtableFree ⟨0, .file, fun _ => null⟩ oneFile 0).bind (fdtableDestroy ⟨0, .file, fun _ => null⟩)).map FdTable.freed =
      some [0, 0] := by
  decide

end Dunkos
