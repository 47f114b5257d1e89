import Dunkos.Pml4Copy
import Dunkos.FdTable
import Dunkos.Paging

/-! # Supplemental page tables (`spt.c`, `frame.c`)

A supplemental page table is a hash table of structs `page` by their user addresses, and the `pml4` of the
process.  `page_table_copy`, which `fork_process` calls for copying on writes, copies the structs and links
each copy to the aliases of its frame.  It never touches the entries of the parent, it hands
`pml4_map_address` the address of the frame in the kernel, and on the fresh `pml4` of the child every entry
goes to the page at NULL.

`page_table_copy_isolates_iff` says what comes of that: the structs and the lists of aliases are right for
every table, and the mappings only for tables without pages. -/

namespace Dunkos

open Elem

/-- `enum readonly_violation_policy`. -/
inductive Rovp where
  | except
  | copy
deriving DecidableEq, Repr

structure PageDiskStorage where
  offset : BitVec 64
  source : ℕ

/-- `struct page`, whose links are in the lists.  `phys` is the index of the frame in `frame_table`. -/
structure Page where
  phys : ℕ
  useraddr : BitVec 64
  ondisk : Bool
  readonly : Bool
  rovp : Rovp
  diskrep : PageDiskStorage

/-- The structs `page`, the next one that `kcalloc` returns, the lists of aliases of the frames, and the
words of memory. -/
structure PageMem where
  pages : ℕ → Page
  next : ℕ
  aliases : ListMem ℕ ℕ
  words : PhysMem

/-- `struct page_table`; `pml4` is an address of the kernel. -/
structure PageTable where
  con : Hashtable ℕ (BitVec 64)
  pml4 : BitVec 64

def pageEqual (l r : BitVec 64) : Bool := l == r

def pageHash (useraddr : BitVec 64) : ℕ := (hashUint64 useraddr).toNat

/-- `con` is what the memory holds that `kcalloc` returns, and `pml4` the block that `pml4_alloc` returns. -/
def pageTableCreate (con : ListMem (Fin initBuckets) ℕ) (pml4 : BitVec 64) : PageTable where
  con := hashtableInit con pageHash pageEqual
  pml4 := pml4

/-- `userBase` is what `get_user_base` returns. -/
def frameToKernaddr (userBase : BitVec 64) (f : ℕ) : BitVec 64 := userBase + BitVec.ofNat 64 (f * pageSize)

/-- The struct that `page_copy` makes of another one. -/
def Page.copied (p : Page) : Page :=
  { p with rovp := if p.rovp ≠ .except then .copy else p.rovp, readonly := true }

/-- The links of the new struct are written before they are read. -/
def pageCopy (kcalloc : PhysMem → PhysMem × BitVec 64) (userBase : BitVec 64) (s : PageMem × PageTable)
    (srcPg : ℕ) : Option (PageMem × PageTable) :=
  let pg := s.1.next
  let page := (s.1.pages srcPg).copied
  let pages := Function.update s.1.pages pg page
  (hashtableInsert s.2.con (fun n => (pages n).useraddr) pg).map fun con =>
    ({ pages := pages
       next := pg + 1
       aliases := listPushBack s.1.aliases page.phys (node pg)
       words := pml4MapAddress kcalloc s.1.words (kernelToPhys s.2.pml4) page.useraddr
        (frameToKernaddr userBase page.phys) },
      { s.2 with con := con })

def pageTableCopy (kcalloc : PhysMem → PhysMem × BitVec 64) (userBase : BitVec 64) (s : PageMem)
    (dest src : PageTable) : Option (PageMem × PageTable) :=
  (hashtableForeach src.con).bind fun pgs => pgs.foldlM (pageCopy kcalloc userBase) (s, dest)

/-! ### What a copy is for -/

/-- The structs of a table. -/
def PageTable.pages (t : PageTable) : List ℕ := (hashtableForeach t.con).getD []

def PageMem.aliasesOf (s : PageMem) (f : ℕ) : List ℕ := (forward s.aliases f).1

/-- The words of memory in which the page tables of a process begin. -/
def PageTable.root (t : PageTable) : BitVec 64 := kernelToPhys t.pml4

/-- The table `dest` has one page for every page of `src`, and the aliases of each frame have gained these. -/
structure PagesCopied (s s' : PageMem) (dest src : PageTable) : Prop where
  page : ∀ pg ∈ src.pages, ∃! n, n ∈ dest.pages ∧ (s'.pages n).useraddr = (s.pages pg).useraddr ∧
    (s'.pages n).phys = (s.pages pg).phys
  aliases : ∀ f, ∃ new, s'.aliasesOf f = s.aliasesOf f ++ new ∧ new.Nodup ∧
    ∀ n, n ∈ new ↔ n ∈ dest.pages ∧ (s'.pages n).phys = f

/-- What `page_table_copy` is for. -/
structure Isolates (s s' : PageMem) (dest src : PageTable) : Prop extends PagesCopied s s' dest src where
  mapped : ∀ pg ∈ src.pages, walk s'.words dest.root (s.pages pg).useraddr &&& pml4Present ≠ 0 ∧
    tableOf (walk s'.words dest.root (s.pages pg).useraddr) = tableOf (walk s.words src.root (s.pages pg).useraddr)
  readonly : ∀ pg ∈ src.pages, walk s.words src.root (s.pages pg).useraddr &&& pml4Writable ≠ 0 →
    walk s'.words src.root (s.pages pg).useraddr &&& pml4Writable = 0 ∧
      walk s'.words dest.root (s.pages pg).useraddr &&& pml4Writable = 0
  kept : ∀ a, SameEntry (walk s'.words src.root a) (walk s.words src.root a) ∧
    ((∀ pg ∈ src.pages, ¬ SamePage a (s.pages pg).useraddr) → walk s'.words src.root a = walk s.words src.root a)

/-- The invariant of a table: its structs are found by their addresses.  All structs in use were allocated, and
the lists of aliases hold `aliases`. -/
structure PageTable.Valid (t : PageTable) (s : PageMem) (aliases : ℕ → List ℕ) : Prop where
  table : ∃ last σ, Table t.con (fun n => (s.pages n).useraddr) last σ
  allocated : ∀ pg ∈ t.pages, pg < s.next
  represents : Represents s.aliases aliases
  aliases_allocated : ∀ f, ∀ n ∈ aliases f, n < s.next

/-! ### The tables of the child -/

/-- What `page_table_copy` relies on.  `Uses m new` says that `tables` and the blocks `new`, which were handed out
since, are in use; there is room for `capacity` blocks.  The words that are written are not the heap's.  `addrs` are
the addresses of the pages: the entries that their walks read in a table at `tableOf p`, where `p` is a new block, are
for no table. -/
structure ForkHeap (kcalloc : PhysMem → PhysMem × BitVec 64) (Uses : PhysMem → List (BitVec 64) → Prop)
    (capacity : ℕ) (tables : List (BitVec 64)) (root : BitVec 64) (addrs : List (BitVec 64)) : Prop where
  alloc : ∀ {m new}, Uses m new → new.length < capacity → ∃ offset,
    NewTable offset m (kcalloc m).1 (new ++ tables) (kernelToPhys (kcalloc m).2) ∧
      Uses (kcalloc m).1 (kernelToPhys (kcalloc m).2 :: new)
  root : ∀ {m new a} (v : BitVec 64), Uses m new → a ∈ addrs →
    Uses (Function.update m (slot root (pml4Offset a)) v) new
  null : ∀ {m new a} (v : BitVec 64), Uses m new → a ∈ addrs → Uses (Function.update m (slot 0 (pgdOffset a)) v) new
  front : ∀ {m new p a}, Uses m new → p ∈ new → a ∈ addrs → tableOf (m (slot (tableOf p) (pdpOffset a))) = 0

/-- The page tables after some of the pages were mapped: the `pdp`s are new blocks, and the other tables are as
they were. -/
structure NoTables (Uses : PhysMem → List (BitVec 64) → Prop) (tables : List (BitVec 64)) (root : BitVec 64)
    (addrs : List (BitVec 64)) (m₀ m : PhysMem) (new : List (BitVec 64)) : Prop where
  uses : Uses m new
  pdp : ∀ a ∈ addrs, pdpOf m root a = 0 ∨ ∃ p ∈ new, pdpOf m root a = tableOf p
  keeps : ∀ t ∈ tables, TablesApart t root → TablesApart t 0 → ∀ i : BitVec 64, i.toNat < 512 →
    m (slot t i) = m₀ (slot t i)

namespace NoTables
variable {kcalloc : PhysMem → PhysMem × BitVec 64} {Uses : PhysMem → List (BitVec 64) → Prop} {capacity : ℕ}
  {tables addrs new : List (BitVec 64)} {root a : BitVec 64} {m₀ m : PhysMem}

theorem pgdOf_eq_zero (h : NoTables Uses tables root addrs m₀ m new)
    (hk : ForkHeap kcalloc Uses capacity tables root addrs) (ha : a ∈ addrs) (hp : pdpOf m root a ≠ 0) :
    pgdOf m root a = 0 := by
  obtain ⟨p, hmem, hpdp⟩ := (h.pdp a ha).resolve_left hp
  unfold pgdOf
  rw [hpdp]
  exact hk.front h.uses hmem ha

/-- No page is mapped. -/
theorem walk_eq_zero (h : NoTables Uses tables root addrs m₀ m new)
    (hk : ForkHeap kcalloc Uses capacity tables root addrs) (ha : a ∈ addrs) : walk m root a = 0 := by
  unfold walk
  exact if_neg fun hl => hl.2 (h.pgdOf_eq_zero hk ha hl.1)

/-- An entry is written to the page at NULL. -/
theorem setNull (h : NoTables Uses tables root addrs m₀ m new) (hk : ForkHeap kcalloc Uses capacity tables root addrs)
    (hnull : TablesApart root 0) (ha : a ∈ addrs) (v : BitVec 64) :
    NoTables Uses tables root addrs m₀ (Function.update m (slot 0 (pgdOffset a)) v) new where
  uses := hk.null v h.uses ha
  pdp b hb := by
    unfold pdpOf
    rw [Function.update_of_ne (hnull _ _ (pml4Offset_lt b) (pgdOffset_lt a))]
    exact h.pdp b hb
  keeps t ht hroot hzero i hi := by
    rw [Function.update_of_ne (hzero _ _ hi (pgdOffset_lt a))]
    exact h.keeps t ht hroot hzero i hi

/-- A new `pdp`. -/
theorem link (h : NoTables Uses tables root addrs m₀ m new) (hk : ForkHeap kcalloc Uses capacity tables root addrs)
    (hroot : root ∈ tables) (ha : a ∈ addrs) {m' : PhysMem} {p : BitVec 64} {offset : ℕ}
    (hp : NewTable offset m m' (new ++ tables) p) (hu : Uses m' (p :: new)) :
    NoTables Uses tables root addrs m₀
      (Function.update m' (slot root (pml4Offset a)) (p ||| (pml4Writable ||| pml4Present))) (p :: new) where
  uses := hk.root _ hu ha
  pdp b hb := by
    unfold pdpOf
    by_cases hab : pml4Offset b = pml4Offset a
    · rw [hab, Function.update_self, tableOf_or_flags p (by decide)]
      exact .inr ⟨p, List.mem_cons_self, rfl⟩
    · rw [Function.update_of_ne fun he => hab (slot_inj (pml4Offset_lt b) (pml4Offset_lt a) he),
        hp.keeps root (List.mem_append_right _ hroot) _ (pml4Offset_lt b)]
      refine (h.pdp b hb).imp_right ?_
      rintro ⟨q, hq, hbq⟩
      exact ⟨q, List.mem_cons_of_mem _ hq, hbq⟩
  keeps t ht htroot hzero i hi := by
    rw [Function.update_of_ne (htroot _ _ hi (pml4Offset_lt a)), hp.keeps t (List.mem_append_right _ ht) i hi]
    exact h.keeps t ht htroot hzero i hi

/-- `pml4_map_address` for a page of the parent. -/
theorem map (h : NoTables Uses tables root addrs m₀ m new) (hk : ForkHeap kcalloc Uses capacity tables root addrs)
    (hroot : root ∈ tables) (hnull : TablesApart root 0) (hroom : new.length < capacity) (ha : a ∈ addrs)
    (frame : BitVec 64) : ∃ new', NoTables Uses tables root addrs m₀ (pml4MapAddress kcalloc m root a frame) new' ∧
      new'.length ≤ new.length + 1 := by
  by_cases hpdp : pdpOf m root a = 0
  · obtain ⟨offset, hp, hu⟩ := hk.alloc h.uses hroom
    have hkc : KcallocTable (kcalloc m) root := by
      refine ⟨fun h₀ => ?_, hp.zeroed, hp.apart root (List.mem_append_right _ hroot)⟩
      have hnonnull := hp.nonnull
      rw [h₀] at hnonnull
      exact absurd hnonnull (by decide)
    rw [pml4MapAddress_of_no_pdp hpdp hkc]
    exact ⟨_, (h.link hk hroot ha hp hu).setNull hk hnull ha _, Nat.le_refl _⟩
  · rw [pml4MapAddress_of_no_pgd hpdp (h.pgdOf_eq_zero hk ha hpdp)]
    exact ⟨_, h.setNull hk hnull ha _, Nat.le_succ _⟩

/-- The translations of the parent. -/
theorem walk_parent (h : NoTables Uses tables root addrs m₀ m new) {src : BitVec 64}
    (ht : Tree (fun t => t ∈ tables ∧ TablesApart t root ∧ TablesApart t 0) 4 m₀ src) (a : BitVec 64) :
    walk m src a = walk m₀ src a := by
  have hkeep : ∀ t, t ∈ tables ∧ TablesApart t root ∧ TablesApart t 0 → ∀ i : BitVec 64, i.toNat < 512 →
      m (slot t i) = m₀ (slot t i) := fun t ht => h.keeps t ht.1 ht.2.1 ht.2.2
  apply walk_congr
  · exact hkeep _ ht.1 _ (pml4Offset_lt a)
  · intro hp
    exact hkeep _ (ht.2 _ (pml4Offset_lt a) hp).1 _ (pdpOffset_lt a)
  · intro hl
    exact hkeep _ ((ht.2 _ (pml4Offset_lt a) hl.1).2 _ (pdpOffset_lt a) hl.2) _ (pgdOffset_lt a)

end NoTables

/-! ### The structs of the child -/

section
variable {s : PageMem} {src : PageTable} {aliases : ℕ → List ℕ}

/-- The structs of a table: no struct twice, and no two for one address. -/
theorem PageTable.Valid.pages_nodup (h : src.Valid s aliases) : hashtableForeach src.con = some src.pages ∧
    src.pages.Nodup ∧ ∀ pg ∈ src.pages, ∀ pg' ∈ src.pages, (s.pages pg).useraddr = (s.pages pg').useraddr → pg = pg' := by
  obtain ⟨last, σ, ht⟩ := h.table
  have hall := hashtableForeach_represents ht.represents
  have hpages : src.pages = (List.finRange src.con.buckets).flatMap σ := by
    unfold PageTable.pages
    rw [hall, Option.getD_some]
  rw [hpages]
  refine ⟨hall, ht.elements_nodup, fun pg hpg pg' hpg' he => ?_⟩
  have h₁ := ht.mem_elements.mp hpg
  have h₂ := ht.mem_elements.mp hpg'
  rw [he, h₂] at h₁
  exact (Option.some.inj h₁).symm

end

theorem pageTableCreate_table (con : ListMem (Fin initBuckets) ℕ) (pml4 : BitVec 64) (key : ℕ → BitVec 64) :
    Table (pageTableCreate con pml4).con key (fun _ => none) fun _ => [] := by
  have hl : LawfulHash pageHash pageEqual := by
    refine ⟨⟨fun a => beq_self_eq_true a, fun h => ?_, fun h h' => ?_⟩, fun a b h => congrArg pageHash (eq_of_beq h)⟩
    · exact beq_iff_eq.mpr (eq_of_beq h).symm
    · exact beq_iff_eq.mpr ((eq_of_beq h).trans (eq_of_beq h'))
  have hf : ∀ b, Initialised (hashtableInit con pageHash pageEqual).con b :=
    fun b => foldl_listInit con (.inl (List.mem_finRange b))
  refine ⟨hl, .of_fresh fun b => .inl (hf b), ?_, ?_, ?_⟩
  all_goals simp

/-- The structs after `done` was copied: those from `s₀.next` on are the copies. -/
structure Copying (s₀ : PageMem) (aliases : ℕ → List ℕ) (done : List ℕ) (s : PageMem) (dest : PageTable) : Prop where
  next : s.next = s₀.next + done.length
  old : ∀ n, n < s₀.next → s.pages n = s₀.pages n
  new : (List.range' s₀.next done.length).map s.pages = done.map fun pg => (s₀.pages pg).copied
  equal : dest.con.eq = pageEqual
  table : ∃ last σ, Table dest.con (fun n => (s.pages n).useraddr) last σ ∧ ∀ a n, last a = some n ↔
    n ∈ List.range' s₀.next done.length ∧ (s.pages n).useraddr = a
  aliases : Represents s.aliases fun f =>
    aliases f ++ (List.range' s₀.next done.length).filter fun n => (s.pages n).phys = f

namespace Copying
variable {kcalloc : PhysMem → PhysMem × BitVec 64} {userBase : BitVec 64} {s₀ s : PageMem} {aliases : ℕ → List ℕ}
  {done : List ℕ} {dest : PageTable} {pg : ℕ}

theorem start (hr : Represents s.aliases aliases) (con : ListMem (Fin initBuckets) ℕ) (pml4 : BitVec 64) :
    Copying s aliases [] s (pageTableCreate con pml4) where
  next := rfl
  old _ _ := rfl
  new := rfl
  equal := rfl
  table := ⟨fun _ => none, fun _ => [], pageTableCreate_table con pml4 _, fun a n =>
    iff_of_false nofun fun h => List.not_mem_nil h.1⟩
  aliases := by
    have hnil : (fun f => aliases f ++ (List.range' s.next ([] : List ℕ).length).filter
        fun n => (s.pages n).phys = f) = aliases := by
      funext f
      exact List.append_nil _
    rw [hnil]
    exact hr

/-- The copies are copies of pages that are done. -/
theorem copy_of_mem (h : Copying s₀ aliases done s dest) {n : ℕ} (hn : n ∈ List.range' s₀.next done.length) :
    ∃ pg ∈ done, s.pages n = (s₀.pages pg).copied := by
  have hmem : s.pages n ∈ (List.range' s₀.next done.length).map s.pages := List.mem_map_of_mem hn
  rw [h.new, List.mem_map] at hmem
  obtain ⟨pg, hpg, he⟩ := hmem
  exact ⟨pg, hpg, he.symm⟩

theorem mem_of_done (h : Copying s₀ aliases done s dest) (hpg : pg ∈ done) :
    ∃ n ∈ List.range' s₀.next done.length, s.pages n = (s₀.pages pg).copied := by
  have hmem : (s₀.pages pg).copied ∈ done.map fun pg => (s₀.pages pg).copied := List.mem_map_of_mem hpg
  rw [← h.new, List.mem_map] at hmem
  exact hmem

theorem lt_of_copy (h : Copying s₀ aliases done s dest) {n : ℕ} (hn : n ∈ List.range' s₀.next done.length) :
    n < s.next := by
  rw [h.next]
  exact (List.mem_range'_1.mp hn).2

theorem range_concat (h : Copying s₀ aliases done s dest) (pg : ℕ) :
    List.range' s₀.next (done ++ [pg]).length = List.range' s₀.next done.length ++ [s.next] := by
  rw [List.length_append, List.length_singleton, List.range'_1_concat, h.next]

/-- A new struct with an address of its own is inserted. -/
theorem insert (h : Copying s₀ aliases done s dest) (page : Page)
    (hnew : ∀ n ∈ List.range' s₀.next done.length, (s.pages n).useraddr ≠ page.useraddr) : ∃ con entries last σ,
      hashtableInsert dest.con (fun n => (Function.update s.pages s.next page n).useraddr) s.next =
        some { dest.con with con := con, entries := entries } ∧
      Table { dest.con with con := con, entries := entries } (fun n => (Function.update s.pages s.next page n).useraddr)
        last σ ∧ ∀ a n, last a = some n ↔ n ∈ List.range' s₀.next done.length ++ [s.next] ∧
          (Function.update s.pages s.next page n).useraddr = a := by
  obtain ⟨last, σ, ht, hlast⟩ := h.table
  have hunlinked : ∀ b, s.next ∉ σ b := by
    intro b hb
    have hfound := (ht.last_iff _ _).mpr ⟨ht.placed b _ hb ▸ hb, ht.lawful.equiv.refl _⟩
    exact Nat.lt_irrefl _ (h.lt_of_copy ((hlast _ _).mp hfound).1)
  have hkeys : Function.update (fun n => (s.pages n).useraddr) s.next page.useraddr =
      fun n => (Function.update s.pages s.next page n).useraddr :=
    (Function.comp_update Page.useraddr s.pages s.next page).symm
  have ht' := ht.write hunlinked page.useraddr
  rw [hkeys] at ht'
  obtain ⟨con, entries, σ', hins, hins'⟩ := ht'.insert hunlinked
  refine ⟨con, entries, _, σ', hins, hins', fun a n => ?_⟩
  rw [Function.update_self, List.mem_append, List.mem_singleton, h.equal]
  have hold : ∀ n ∈ List.range' s₀.next done.length, Function.update s.pages s.next page n = s.pages n :=
    fun n hn => Function.update_of_ne (Nat.ne_of_lt (h.lt_of_copy hn)) _ _
  split_ifs with ha
  · obtain rfl : a = page.useraddr := eq_of_beq ha
    constructor
    · intro hn
      cases hn
      rw [Function.update_self]
      exact ⟨.inr rfl, rfl⟩
    · rintro ⟨hn | rfl, hna⟩
      · rw [hold n hn] at hna
        exact absurd hna (hnew n hn)
      · rfl
  · rw [hlast]
    constructor
    · rintro ⟨hn, hna⟩
      rw [hold n hn]
      exact ⟨.inl hn, hna⟩
    · rintro ⟨hn | rfl, hna⟩
      · rw [hold n hn] at hna
        exact ⟨hn, hna⟩
      · rw [Function.update_self] at hna
        exact absurd (beq_iff_eq.mpr hna.symm) ha

/-- A new struct is linked to the aliases of its frame. -/
theorem pushAlias (h : Copying s₀ aliases done s dest) (hal : ∀ f, ∀ n ∈ aliases f, n < s₀.next) (page : Page) :
    Represents (listPushBack s.aliases page.phys (node s.next)) fun f => aliases f ++
      (List.range' s₀.next done.length ++ [s.next]).filter
        fun n => (Function.update s.pages s.next page n).phys = f := by
  have hoff : ∀ f, s.next ∉ aliases f ++ (List.range' s₀.next done.length).filter fun n => (s.pages n).phys = f := by
    intro f hmem
    rcases List.mem_append.mp hmem with hmem | hmem
    · have hlt := hal f _ hmem
      rw [h.next] at hlt
      omega
    · exact Nat.lt_irrefl _ (h.lt_of_copy (List.mem_filter.mp hmem).1)
  have hpush := h.aliases.pushBack page.phys hoff
  refine (congrArg (Represents (listPushBack s.aliases page.phys (node s.next))) ?_).mp hpush
  funext f
  have hfilter : ((List.range' s₀.next done.length).filter fun n => (Function.update s.pages s.next page n).phys = f) =
      (List.range' s₀.next done.length).filter fun n => (s.pages n).phys = f := by
    apply List.filter_congr
    intro n hn
    rw [Function.update_of_ne (Nat.ne_of_lt (h.lt_of_copy hn))]
  rw [List.filter_append, hfilter]
  by_cases hf : f = page.phys
  · rw [hf, Function.update_self, List.append_assoc]
    simp
  · rw [Function.update_of_ne hf]
    simp [Ne.symm hf]

variable (kcalloc userBase) in
/-- `page_copy` of a page whose address was not copied yet. -/
theorem step (h : Copying s₀ aliases done s dest) (hlt : pg < s₀.next) (hal : ∀ f, ∀ n ∈ aliases f, n < s₀.next)
    (hnew : ∀ pg' ∈ done, (s₀.pages pg').useraddr ≠ (s₀.pages pg).useraddr) :
    ∃ s' dest', pageCopy kcalloc userBase (s, dest) pg = some (s', dest') ∧
      Copying s₀ aliases (done ++ [pg]) s' dest' ∧ dest'.pml4 = dest.pml4 ∧
      s'.words = pml4MapAddress kcalloc s.words dest.root (s₀.pages pg).useraddr
        (frameToKernaddr userBase (s₀.pages pg).phys) := by
  obtain ⟨con, entries, last, σ, hins, ht, hlast⟩ := h.insert (s₀.pages pg).copied fun n hn he => by
    obtain ⟨pg', hpg', hcopied⟩ := h.copy_of_mem hn
    rw [hcopied] at he
    exact hnew pg' hpg' he
  have hpages := h.pushAlias hal (s₀.pages pg).copied
  have hcopy : pageCopy kcalloc userBase (s, dest) pg = some
      ({ pages := Function.update s.pages s.next (s₀.pages pg).copied
         next := s.next + 1
         aliases := listPushBack s.aliases (s₀.pages pg).copied.phys (node s.next)
         words := pml4MapAddress kcalloc s.words dest.root (s₀.pages pg).useraddr
          (frameToKernaddr userBase (s₀.pages pg).phys) },
        { dest with con := { dest.con with con := con, entries := entries } }) := by
    unfold pageCopy
    dsimp only
    rw [h.old pg hlt, hins]
    rfl
  rw [← h.range_concat pg] at hlast hpages
  refine ⟨_, _, hcopy, ⟨?_, fun n hn => ?_, ?_, h.equal, ⟨last, σ, ht, hlast⟩, hpages⟩, rfl, rfl⟩
  · show s.next + 1 = _
    rw [h.next, List.length_append, List.length_singleton, Nat.add_assoc]
  · have hn' : n < s.next := by
      rw [h.next]
      exact Nat.lt_add_right _ hn
    exact (Function.update_of_ne (Nat.ne_of_lt hn') _ _).trans (h.old n hn)
  · rw [h.range_concat, List.map_append, List.map_append, List.map_singleton, List.map_singleton, ← h.new]
    show _ ++ [Function.update s.pages s.next (s₀.pages pg).copied s.next] = _
    rw [Function.update_self]
    refine congrArg (· ++ [_]) (List.map_congr_left fun n hn => ?_)
    exact Function.update_of_ne (Nat.ne_of_lt (h.lt_of_copy hn)) _ _

end Copying

/-- What all of `page_table_copy` leaves: the structs are copied, the parent's translations are as they were, and
the child has no page. -/
structure TableCopied (s s' : PageMem) (dest src : PageTable) : Prop extends PagesCopied s s' dest src where
  parent : ∀ a, walk s'.words src.root a = walk s.words src.root a
  child : ∀ pg ∈ src.pages, walk s'.words dest.root (s.pages pg).useraddr = 0

section
variable {kcalloc : PhysMem → PhysMem × BitVec 64} {userBase : BitVec 64} {s s' : PageMem} {src dest : PageTable}
  {aliases : ℕ → List ℕ}

/-- The structs of the child, when all pages are done. -/
theorem Copying.pagesCopied (h : Copying s aliases src.pages s' dest) (hr : Represents s.aliases aliases) :
    PagesCopied s s' dest src := by
  obtain ⟨last, σ, ht, hlast⟩ := h.table
  have hall := hashtableForeach_represents ht.represents
  have hmem : ∀ n, n ∈ dest.pages ↔ n ∈ List.range' s.next src.pages.length := by
    intro n
    unfold PageTable.pages
    rw [hall, Option.getD_some, ht.mem_elements, hlast]
    exact and_iff_left rfl
  refine ⟨fun pg hpg => ?_, fun f => ?_⟩
  · obtain ⟨n, hn, hcopied⟩ := h.mem_of_done hpg
    have hsame : (s'.pages n).useraddr = (s.pages pg).useraddr ∧ (s'.pages n).phys = (s.pages pg).phys := by
      rw [hcopied]
      exact ⟨rfl, rfl⟩
    refine ⟨n, ⟨(hmem n).mpr hn, hsame⟩, ?_⟩
    rintro n' ⟨hn', haddr, -⟩
    have h₁ := (hlast _ _).mpr ⟨hn, hsame.1⟩
    have h₂ := (hlast _ _).mpr ⟨(hmem n').mp hn', haddr⟩
    exact Option.some.inj (h₂.symm.trans h₁)
  · refine ⟨(List.range' s.next src.pages.length).filter fun n => (s'.pages n).phys = f, ?_, ?_, fun n => ?_⟩
    · unfold PageMem.aliasesOf
      rw [h.aliases.forward_eq, hr.forward_eq]
    · exact List.Nodup.filter _ List.nodup_range'
    · rw [List.mem_filter, hmem, decide_eq_true_iff]

variable {Uses : PhysMem → List (BitVec 64) → Prop} {capacity : ℕ} {tables : List (BitVec 64)} {pml4 : BitVec 64}

/-- The addresses of the pages of a table. -/
def PageTable.addrs (t : PageTable) (s : PageMem) : List (BitVec 64) := t.pages.map fun pg => (s.pages pg).useraddr

/-- What the loop over the pages keeps: the structs of `done` are copied, and none of the pages is mapped. -/
structure ForkLoop (Uses : PhysMem → List (BitVec 64) → Prop) (tables : List (BitVec 64)) (aliases : ℕ → List ℕ)
    (src : PageTable) (pml4 : BitVec 64) (s : PageMem) (done : List ℕ) (r : PageMem × PageTable) : Prop where
  copying : Copying s aliases done r.1 r.2
  sameRoot : r.2.pml4 = pml4
  unmapped : ∃ new, NoTables Uses tables (kernelToPhys pml4) (src.addrs s) s.words r.1.words new ∧
    new.length ≤ done.length

theorem ForkLoop.start (hv : src.Valid s aliases) (hu : Uses s.words [])
    (hz : ∀ i : BitVec 64, i.toNat < 512 → s.words (slot (kernelToPhys pml4) i) = 0)
    (con : ListMem (Fin initBuckets) ℕ) : ForkLoop Uses tables aliases src pml4 s [] (s, pageTableCreate con pml4) where
  copying := .start hv.represents con pml4
  sameRoot := rfl
  unmapped := by
    refine ⟨[], ⟨hu, fun a ha => .inl ?_, fun t _ _ _ i _ => rfl⟩, Nat.le_refl 0⟩
    unfold pdpOf
    rw [hz _ (pml4Offset_lt a)]
    rfl

/-- One round of the loop. -/
theorem ForkLoop.round {done : List ℕ} {pg : ℕ} {r : PageMem × PageTable}
    (h : ForkLoop Uses tables aliases src pml4 s done r) (userBase : BitVec 64) (hv : src.Valid s aliases)
    (hk : ForkHeap kcalloc Uses capacity tables (kernelToPhys pml4) (src.addrs s))
    (hroom : src.pages.length ≤ capacity) (hroot : kernelToPhys pml4 ∈ tables) (hnull : TablesApart (kernelToPhys pml4) 0)
    (hpre : done ++ [pg] <+: src.pages) : ∃ r', pageCopy kcalloc userBase r pg = some r' ∧
      ForkLoop Uses tables aliases src pml4 s (done ++ [pg]) r' := by
  obtain ⟨hcopy, hpml4, new, hno, hlen⟩ := h
  obtain ⟨-, hnodup, hinj⟩ := hv.pages_nodup
  have hpg : pg ∈ src.pages := hpre.subset (List.mem_append_right _ List.mem_cons_self)
  have hdone : ∀ pg' ∈ done, (s.pages pg').useraddr ≠ (s.pages pg).useraddr := by
    intro pg' hpg' he
    have heq := hinj pg' (hpre.subset (List.mem_append_left _ hpg')) pg hpg he
    have hnd := List.nodup_append.mp (hpre.sublist.nodup hnodup)
    exact hnd.2.2 pg' hpg' pg List.mem_cons_self heq
  have hlt : new.length < capacity := by
    have hle := hpre.length_le
    rw [List.length_append, List.length_singleton] at hle
    omega
  obtain ⟨s', dest, hstep, hcopy', hpml4', hwords⟩ := hcopy.step kcalloc userBase (hv.allocated pg hpg)
    hv.aliases_allocated hdone
  obtain ⟨new', hno', hlen'⟩ := hno.map hk hroot hnull hlt (List.mem_map_of_mem hpg)
    (frameToKernaddr userBase (s.pages pg).phys)
  refine ⟨(s', dest), hstep, hcopy', hpml4'.trans hpml4, new', ?_, ?_⟩
  · rw [hwords]
    unfold PageTable.root
    rw [hpml4]
    exact hno'
  · rw [List.length_append, List.length_singleton]
    omega

/-- **All pages are copied.** -/
theorem pageTableCopy_copied (userBase : BitVec 64) (hv : src.Valid s aliases)
    (hk : ForkHeap kcalloc Uses capacity tables (kernelToPhys pml4) (src.addrs s))
    (hu : Uses s.words []) (hroom : src.pages.length ≤ capacity) (hroot : kernelToPhys pml4 ∈ tables)
    (hnull : TablesApart (kernelToPhys pml4) 0)
    (hz : ∀ i : BitVec 64, i.toNat < 512 → s.words (slot (kernelToPhys pml4) i) = 0)
    (ht : Tree (fun t => t ∈ tables ∧ TablesApart t (kernelToPhys pml4) ∧ TablesApart t 0) 4 s.words src.root)
    (con : ListMem (Fin initBuckets) ℕ) :
    ∃ s' dest, pageTableCopy kcalloc userBase s (pageTableCreate con pml4) src = some (s', dest) ∧
      TableCopied s s' dest src := by
  have hloop : ∃ r, src.pages.foldlM (pageCopy kcalloc userBase) (s, pageTableCreate con pml4) = some r ∧
      ForkLoop Uses tables aliases src pml4 s src.pages r :=
    Loop.foldlM_total (I := ForkLoop Uses tables aliases src pml4 s)
      (fun _ _ _ hpre h => h.round userBase hv hk hroom hroot hnull hpre) (.start hv hu hz con)
  obtain ⟨⟨s', dest⟩, hr, hcopy, hpml4, new, hno, -⟩ := hloop
  refine ⟨s', dest, ?_, hcopy.pagesCopied hv.represents, fun a => hno.walk_parent ht a, fun pg hpg => ?_⟩
  · unfold pageTableCopy
    rw [hv.pages_nodup.1, Option.bind_some, hr]
  · unfold PageTable.root
    rw [hpml4]
    exact hno.walk_eq_zero hk (List.mem_map_of_mem hpg)

theorem TableCopied.isolates_iff (h : TableCopied s s' dest src) : Isolates s s' dest src ↔ src.pages = [] := by
  constructor
  · intro hi
    by_contra hne
    obtain ⟨pg, hpg⟩ := List.exists_mem_of_ne_nil _ hne
    have hpresent := (hi.mapped pg hpg).1
    rw [h.child pg hpg] at hpresent
    exact hpresent (by decide)
  · intro hnil
    have hno : ∀ pg, pg ∉ src.pages := fun pg => hnil ▸ List.not_mem_nil
    refine ⟨h.toPagesCopied, fun pg hpg => absurd hpg (hno pg), fun pg hpg => absurd hpg (hno pg), fun a => ?_⟩
    rw [h.parent a]
    exact ⟨⟨rfl, rfl⟩, fun _ => rfl⟩

end

/-- **What `page_table_copy` does.**  For every valid table, it returns; the structs and the lists of aliases are
right; all translations of the parent are as they were, so that a page that is writable stays writable; and the child
maps no page of the parent.  So it isolates the two exactly when there are no pages. -/
theorem page_table_copy_isolates_iff {kcalloc : PhysMem → PhysMem × BitVec 64}
    {Uses : PhysMem → List (BitVec 64) → Prop} {capacity : ℕ} {tables : List (BitVec 64)} (userBase : BitVec 64)
    {s : PageMem} {src : PageTable} {aliases : ℕ → List ℕ} {pml4 : BitVec 64} (hv : src.Valid s aliases)
    (hk : ForkHeap kcalloc Uses capacity tables (kernelToPhys pml4) (src.addrs s))
    (hu : Uses s.words []) (hroom : src.pages.length ≤ capacity) (hroot : kernelToPhys pml4 ∈ tables)
    (hnull : TablesApart (kernelToPhys pml4) 0)
    (hz : ∀ i : BitVec 64, i.toNat < 512 → s.words (slot (kernelToPhys pml4) i) = 0)
    (ht : Tree (fun t => t ∈ tables ∧ TablesApart t (kernelToPhys pml4) ∧ TablesApart t 0) 4 s.words src.root)
    (con : ListMem (Fin initBuckets) ℕ) :
    ∃ s' dest, pageTableCopy kcalloc userBase s (pageTableCreate con pml4) src = some (s', dest) ∧
      PagesCopied s s' dest src ∧ (∀ a, walk s'.words src.root a = walk s.words src.root a) ∧
      (∀ pg ∈ src.pages, walk s'.words dest.root (s.pages pg).useraddr = 0) ∧
      (Isolates s s' dest src ↔ src.pages = []) := by
  obtain ⟨s', dest, hr, hc⟩ := pageTableCopy_copied userBase hv hk hu hroom hroot hnull hz ht con
  exact ⟨s', dest, hr, hc.toPagesCopied, hc.parent, hc.child, hc.isolates_iff⟩

/-! ### A small instance -/

/-- Blocks that were handed out beside `tables` and are zero still. -/
structure ZeroBlocks (Uses : PhysMem → List (BitVec 64) → Prop) (offset : ℕ) (tables : List (BitVec 64)) (m : PhysMem)
    (new : List (BitVec 64)) : Prop where
  uses : Uses m (new ++ tables)
  offset : ∀ p ∈ new, p.toNat % 4096 = offset
  apart : ∀ p ∈ new, ∀ t ∈ tables, TablesApart t p
  zero : ∀ p ∈ new, ∀ i : BitVec 64, i.toNat < 512 → m (slot p i) = 0

section
variable {kc : PhysMem → Option (PhysMem × BitVec 64)} {Uses : PhysMem → List (BitVec 64) → Prop} {capacity o : ℕ}
  {tables new : List (BitVec 64)} {m m' : PhysMem}

theorem ZeroBlocks.write (h : ZeroBlocks Uses (8 * o) tables m new) (hk : TableHeap kc Uses capacity (8 * o))
    {t i : BitVec 64} (ht : t ∈ tables) (hi : i.toNat < 512) (v : BitVec 64) :
    ZeroBlocks Uses (8 * o) tables (Function.update m (slot t i) v) new where
  uses := hk.write v h.uses (List.mem_append_right _ ht) hi
  offset := h.offset
  apart := h.apart
  zero p hp j hj := by
    rw [Function.update_of_ne (h.apart p hp t ht i j hi hj).symm]
    exact h.zero p hp j hj

theorem ZeroBlocks.alloc (h : ZeroBlocks Uses (8 * o) tables m new) {p : BitVec 64}
    (hp : NewTable (8 * o) m m' (new ++ tables) p) (hu : Uses m' (p :: (new ++ tables))) :
    ZeroBlocks Uses (8 * o) tables m' (p :: new) := by
  refine ⟨hu, fun q hq => ?_, fun q hq t ht => ?_, fun q hq i hi => ?_⟩
  · rcases List.mem_cons.mp hq with rfl | hq
    · exact hp.offset
    · exact h.offset q hq
  · rcases List.mem_cons.mp hq with rfl | hq
    · exact hp.apart t (List.mem_append_right _ ht)
    · exact h.apart q hq t ht
  · rcases List.mem_cons.mp hq with rfl | hq
    · exact hp.zeroed i hi
    · rw [hp.keeps q (List.mem_append_left _ hq) i hi]
      exact h.zero q hq i hi

/-- A walk reads a block that is zero, where its entry in the `pdp` is not among the first `o`. -/
theorem ZeroBlocks.front (h : ZeroBlocks Uses (8 * o) tables m new) {p a : BitVec 64} (hp : p ∈ new)
    (ha : o ≤ (pdpOffset a).toNat) : tableOf (m (slot (tableOf p) (pdpOffset a))) = 0 := by
  have hlt := pdpOffset_lt a
  have hi : (BitVec.ofNat 64 ((pdpOffset a).toNat - o)).toNat = (pdpOffset a).toNat - o := by
    rw [BitVec.toNat_ofNat]
    omega
  rw [slot_tableOf (h.offset p hp) (i := BitVec.ofNat 64 ((pdpOffset a).toNat - o)) (by omega), h.zero p hp _ (by omega)]
  rfl

/-- **The heap under `page_table_copy`**: where the pages have their entries in the words of new blocks, the words in
front of the blocks are not read. -/
theorem TableHeap.forkHeap (hk : TableHeap kc Uses capacity (8 * o)) {kcalloc : PhysMem → PhysMem × BitVec 64}
    (hkc : ∀ m r, kc m = some r → kcalloc m = r) {addrs : List (BitVec 64)} {root : BitVec 64}
    (h₀ : 0 ∈ tables) (hroot : root ∈ tables) (haddrs : ∀ a ∈ addrs, o ≤ (pdpOffset a).toNat) :
    ForkHeap kcalloc (ZeroBlocks Uses (8 * o) tables) (capacity - tables.length) tables root addrs where
  alloc := by
    intro m new hz hroom
    obtain ⟨m', b, hkm, hp, hu⟩ := hk.alloc hz.uses (by rw [List.length_append]; omega)
    rw [hkc m _ hkm]
    exact ⟨8 * o, hp, hz.alloc hp hu⟩
  root v hz _ := hz.write hk hroot (pml4Offset_lt _) v
  null v hz _ := hz.write hk h₀ (pgdOffset_lt _) v
  front hz hp ha := hz.front hp (haddrs _ ha)

end

/-- A `pml4` at `0x1000` with a `pdp` at `0x2000` and a `pgd` at `0x3000`, which maps the page of `0xC0000000` to the
frame at `0x1200000`. -/
def parentTree : PhysMem := fun x =>
  if x = 0x1000 then 0x2003 else if x = 0x2018 then 0x3003 else if x = 0x3000 then 0x1200003 else 0

theorem parentTree_slot {x : BitVec 64} (hne : parentTree x ≠ 0) : x = 0x1000 ∨ x = 0x2018 ∨ x = 0x3000 := by
  by_contra hno
  rw [not_or, not_or] at hno
  unfold parentTree at hne
  rw [if_neg hno.1, if_neg hno.2.1, if_neg hno.2.2] at hne
  exact hne rfl

theorem tableOf_parentTree {t i : BitVec 64} (ht : t.toNat ≤ 0x20000) (hi : i.toNat < 512)
    (hne : tableOf (parentTree (slot t i)) ≠ 0) :
    t.toNat + 8 * i.toNat = 0x1000 ∨ t.toNat + 8 * i.toNat = 0x2018 ∨ t.toNat + 8 * i.toNat = 0x3000 := by
  rw [← slot_toNat_of_le ht hi]
  have hx : parentTree (slot t i) ≠ 0 := by
    intro h₀
    rw [h₀] at hne
    exact hne rfl
  rcases parentTree_slot hx with h | h | h <;> rw [h] <;> decide

theorem parentTree_tree :
    Tree (fun t => t ∈ smallTables 0 ∧ TablesApart t 0x4000 ∧ TablesApart t 0) 4 parentTree 0x1000 := by
  have hroot : ∀ {t : BitVec 64}, tableOf t = t → t ≠ 0x4000 → t ≠ 0 → TablesApart t 0x4000 ∧ TablesApart t 0 := by
    intro t ht h₁ h₂
    rw [← ht] at h₁ h₂ ⊢
    exact ⟨tableOf_apart (f := 0x4000) h₁, tableOf_apart_null h₂⟩
  refine ⟨⟨by decide, hroot (by decide) (by decide) (by decide)⟩, fun i hi ht => ?_⟩
  obtain rfl : i = 0 := by
    have h : 0x1000 + 8 * i.toNat = 0x1000 ∨ 0x1000 + 8 * i.toNat = 0x2018 ∨ 0x1000 + 8 * i.toNat = 0x3000 :=
      tableOf_parentTree (t := 0x1000) (by decide) hi ht
    apply BitVec.eq_of_toNat_eq
    show i.toNat = 0
    omega
  refine ⟨⟨by decide, hroot (by decide) (by decide) (by decide)⟩, fun j hj ht' => ?_⟩
  obtain rfl : j = 3 := by
    have h : 0x2000 + 8 * j.toNat = 0x1000 ∨ 0x2000 + 8 * j.toNat = 0x2018 ∨ 0x2000 + 8 * j.toNat = 0x3000 :=
      tableOf_parentTree (t := 0x2000) (by decide) hj ht'
    apply BitVec.eq_of_toNat_eq
    show j.toNat = 3
    omega
  exact ⟨by decide, hroot (by decide) (by decide) (by decide)⟩

/-- One page, at `0xC0000000` and in the second frame. -/
def parentMem : PageMem where
  pages := fun _ => ⟨1, 0xC0000000, false, false, .copy, ⟨0, 0⟩⟩
  next := 1
  aliases := listPushBack ⟨fun _ => null, fun _ => null, fun _ => 0⟩ 1 (node 0)
  words := parentTree

def emptyTable (pml4 : BitVec 64) : PageTable := pageTableCreate ⟨fun _ => null, fun _ => null, fun _ => 0⟩ pml4

def parentTable : PageTable where
  con := (hashtableInsert (emptyTable 0).con (fun n => (parentMem.pages n).useraddr) 0).getD (emptyTable 0).con
  pml4 := physToKernelAddr 0x1000

theorem parentTable_pages : parentTable.pages = [0] := by
  decide

theorem parentTable_valid : parentTable.Valid parentMem (Function.update (fun _ => []) 1 [0]) := by
  obtain ⟨con, entries, σ, hins, ht⟩ := (pageTableCreate_table ⟨fun _ => null, fun _ => null, fun _ => 0⟩ 0
    fun n => (parentMem.pages n).useraddr).insert (e := 0) fun _ => List.not_mem_nil
  have hcon : parentTable.con = { (emptyTable 0).con with con := con, entries := entries } := by
    unfold parentTable emptyTable
    rw [hins]
    rfl
  refine ⟨?_, fun pg hpg => ?_, ?_, fun f n hn => ?_⟩
  · rw [hcon]
    exact ⟨_, σ, ht⟩
  · rw [parentTable_pages, List.mem_singleton] at hpg
    rw [hpg]
    exact Nat.one_pos
  · have h : Represents (⟨fun _ => null, fun _ => null, fun _ => 0⟩ : ListMem ℕ ℕ) fun _ => [] :=
      .of_fresh fun _ => .inr ⟨rfl, rfl, rfl, rfl, rfl⟩
    exact h.pushBack 1 fun _ => List.not_mem_nil
  · by_cases hf : f = 1
    · rw [hf, Function.update_self, List.mem_singleton] at hn
      rw [hn]
      exact Nat.one_pos
    · rw [Function.update_of_ne hf] at hn
      cases hn

/-- `smallKcalloc` for calls that succeed. -/
def parentKcalloc (m : PhysMem) : PhysMem × BitVec 64 := (smallKcalloc m).getD (m, 0)

theorem parentHeap : ForkHeap parentKcalloc (ZeroBlocks SmallUses 24 (smallTables 0)) 2 (smallTables 0)
    (kernelToPhys (physToKernelAddr 0x4000)) (parentTable.addrs parentMem) := by
  have hkc : ∀ m r, smallKcalloc m = some r → parentKcalloc m = r := by
    intro m r h
    unfold parentKcalloc
    rw [h]
    rfl
  refine smallHeap.forkHeap (o := 3) hkc (by decide) (by decide) fun a ha => ?_
  unfold PageTable.addrs at ha
  rw [parentTable_pages, List.map_singleton, List.mem_singleton] at ha
  rw [ha]
  decide

theorem parentMem_uses : ZeroBlocks SmallUses 24 (smallTables 0) parentMem.words [] :=
  ⟨⟨0, by decide, by decide, rfl⟩, fun _ hp => absurd hp List.not_mem_nil, fun _ hp => absurd hp List.not_mem_nil,
    fun _ hp => absurd hp List.not_mem_nil⟩

theorem parentTree_zero {i : BitVec 64} (hi : i.toNat < 512) : parentTree (slot 0x4000 i) = 0 := by
  by_contra hne
  have hslot := parentTree_slot hne
  unfold slot at hslot
  rcases hslot with h | h | h <;> bv_omega

/-- The one page is copied, and the two processes are not isolated. -/
theorem page_table_copy_isolates_iff_one : ∃ s' dest, pageTableCopy parentKcalloc (physToKernelAddr 0x1000000) parentMem
    (emptyTable (physToKernelAddr 0x4000)) parentTable = some (s', dest) ∧
      PagesCopied parentMem s' dest parentTable ∧ ¬ Isolates parentMem s' dest parentTable := by
  obtain ⟨s', dest, hr, hc, -, -, hiff⟩ := page_table_copy_isolates_iff
    (physToKernelAddr 0x1000000) parentTable_valid parentHeap parentMem_uses
    (by decide) (by decide) (tableOf_apart_null (e := 0x4000) (by decide)) (fun i hi => parentTree_zero hi)
    parentTree_tree ⟨fun _ => null, fun _ => null, fun _ => 0⟩
  refine ⟨s', dest, hr, hc, fun hi => ?_⟩
  have hnil := hiff.mp hi
  rw [parentTable_pages] at hnil
  cases hnil

/-- **A writable page, forked**: it is mapped to its frame in the parent, and stays writable there; the child has no
entry for it. -/
theorem page_table_copy_shares_nothing : ∃ s' dest,
    pageTableCopy parentKcalloc (physToKernelAddr 0x1000000) parentMem (emptyTable (physToKernelAddr 0x4000))
      parentTable = some (s', dest) ∧ parentTable.pages = [0] ∧
      walk parentMem.words parentTable.root 0xC0000000 =
        kernelToPhys (frameToKernaddr (physToKernelAddr 0x1000000) 1) ||| (pml4Writable ||| pml4Present) ∧
      walk s'.words parentTable.root 0xC0000000 = walk parentMem.words parentTable.root 0xC0000000 ∧
      walk s'.words dest.root 0xC0000000 = 0 ∧ ¬ Isolates parentMem s' dest parentTable := by
  obtain ⟨s', dest, hr, hc⟩ := pageTableCopy_copied
    (physToKernelAddr 0x1000000) parentTable_valid parentHeap parentMem_uses (by decide) (by decide)
    (tableOf_apart_null (e := 0x4000) (by decide)) (fun i hi => parentTree_zero hi) parentTree_tree
    ⟨fun _ => null, fun _ => null, fun _ => 0⟩
  have hpg : 0 ∈ parentTable.pages := by
    rw [parentTable_pages]
    exact List.mem_singleton_self 0
  have hchild : walk s'.words dest.root 0xC0000000 = 0 := hc.child 0 hpg
  refine ⟨s', dest, hr, parentTable_pages, by decide, hc.parent _, hchild, fun hi => ?_⟩
  have hpresent : walk s'.words dest.root 0xC0000000 &&& pml4Present ≠ 0 := (hi.mapped 0 hpg).1
  rw [hchild] at hpresent
  exact hpresent (by decide)

end Dunkos
