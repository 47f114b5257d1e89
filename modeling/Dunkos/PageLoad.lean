import Dunkos.Spt

/-! # Loading a page (`spt.c`, `frame.c`)

`page_load` looks up the struct `page` of an address, makes one when there is none, and gives it a new frame: the
struct is linked to the aliases of the frame, and the address is mapped to it.

For an address without a struct it hands `&pg` to `hashtable_insert`, where `&pg->bucket_elem` is meant: the variable
`pg` becomes a cell of the table, and the links of the cell are written over it.  The new struct is in no table, and
what `pg` holds from then on is no struct `page`.  `page_load_consistent_iff` says that this and the missing tables of
`pml4_map_address` are all that goes wrong for the address itself.  The struct is not taken off the aliases of the
frame that it was in; `page_load_old_frame` says that these are no list any more. -/

namespace Dunkos

open Elem Linked

/-- What the variable `pg` of `page_load` holds. -/
inductive PagePtr where
  | page (pg : ℕ)
  | cell {buckets : ℕ} (e : Elem (Fin buckets) ℕ)

/-- The struct `page` at the address.  A struct does not begin with one of its cells. -/
def PagePtr.page? : PagePtr → Option ℕ
  | page pg => some pg
  | cell _ => none

/-- The branch for an address without a struct; `phys` is not read before it is assigned.  `stack` stands for the
struct whose `bucket_elem` would lie at `&pg`: its `useraddr` is the word of the stack below `pg`, and its link `prev` is
`pg`. -/
def pageLoadNew (stack : ℕ) (s : PageMem × PageTable) (p : BitVec 64) :
    Option (PageMem × Hashtable ℕ (BitVec 64) × PagePtr) :=
  let pages := Function.update s.1.pages s.1.next ⟨0, p, false, false, .except, ⟨0, 0⟩⟩
  (hashtableInsert s.2.con (fun n => (pages n).useraddr) stack).map fun con =>
    ({ s.1 with pages := pages, next := s.1.next + 1 }, con, .cell (con.con.prev (node stack)))

/-- The body is empty. -/
def pageReadFromDisk (s : PageMem) (_pg : ℕ) : PageMem := s

/-- `f` is what `allocate_frame` returns.  The key is a struct on the stack, none of those in the heap. -/
def pageLoad (kcalloc : PhysMem → PhysMem × BitVec 64) (userBase : BitVec 64) (stack : ℕ) (s : PageMem × PageTable)
    (p : BitVec 64) (f : ℕ) : Option (PageMem × PageTable) :=
  let key := s.1.next
  (hashtableFind s.2.con (fun n => if n = key then p else (s.1.pages n).useraddr) key).bind fun pgEl =>
    (if pgEl = null then pageLoadNew stack s p
      else pgEl.node?.map fun pg => (s.1, s.2.con, .page pg)).bind fun (mem, con, pg) =>
      pg.page?.map fun pg =>
        let page := { mem.pages pg with phys := f }
        let mem := { mem with
          pages := Function.update mem.pages pg page
          aliases := listPushBack mem.aliases f (node pg)
          words := pml4MapAddress kcalloc mem.words (kernelToPhys s.2.pml4) p
            (kernelToPhys (frameToKernaddr userBase f)) }
        (if page.ondisk then pageReadFromDisk mem pg else mem, { s.2 with con := con })

/-! ### What loading is for -/

/-- The table has a struct for the address. -/
def Resident (s : PageMem × PageTable) (p : BitVec 64) : Prop := ∃ pg ∈ s.2.pages, (s.1.pages pg).useraddr = p

/-- What `allocate_frame` is relied on for: no struct is linked to the frame. -/
def FrameFree (s : PageMem) (f : ℕ) : Prop := Holds s.aliases f []

/-- What `page_load(p)` is for, when the frame that it allocates is `f`. -/
structure PageLoaded (userBase : BitVec 64) (s s' : PageMem × PageTable) (p : BitVec 64) (f : ℕ) : Prop where
  entry : ∃ pg, (∀ n, n ∈ s'.2.pages ∧ (s'.1.pages n).useraddr = p ↔ n = pg) ∧ (s'.1.pages pg).phys = f ∧
    ∃ xs, Holds s'.1.aliases f xs ∧ xs.count pg = 1
  root : s'.2.root = s.2.root
  mapped : MapsPage s.1.words s'.1.words s.2.root p (kernelToPhys (frameToKernaddr userBase f))
  others : ∀ pg, (pg ∈ s'.2.pages ∧ (s'.1.pages pg).useraddr ≠ p ↔ pg ∈ s.2.pages ∧ (s.1.pages pg).useraddr ≠ p)
  kept : ∀ pg ∈ s.2.pages, (s.1.pages pg).useraddr ≠ p → s'.1.pages pg = s.1.pages pg ∧
    ∀ xs, Holds s.1.aliases (s.1.pages pg).phys xs → Holds s'.1.aliases (s.1.pages pg).phys xs

/-- The four structures of a process fit together: each struct of the table is on the aliases of its frame, which hold
structs in this frame only, and no two are in one frame. -/
structure Consistent (s : PageMem × PageTable) (aliases : ℕ → List ℕ) : Prop where
  equal : s.2.con.eq = pageEqual
  table : ∃ last σ, Table s.2.con (fun n => (s.1.pages n).useraddr) last σ
  allocated : ∀ pg ∈ s.2.pages, pg < s.1.next
  linked : ∀ pg ∈ s.2.pages, Holds s.1.aliases (s.1.pages pg).phys (aliases (s.1.pages pg).phys) ∧
    pg ∈ aliases (s.1.pages pg).phys
  frames : ∀ pg ∈ s.2.pages, ∀ n ∈ aliases (s.1.pages pg).phys, (s.1.pages n).phys = (s.1.pages pg).phys
  apart : ∀ pg ∈ s.2.pages, ∀ pg' ∈ s.2.pages, (s.1.pages pg).phys = (s.1.pages pg').phys → pg = pg'
  tree : ProperTree s.1.words s.2.root

/-! ### A cell that is linked twice -/

section
variable {L N : Type} [DecidableEq L] [DecidableEq N] {m : ListMem L N} {li li' : L} {n : N} {xs : List N}

/-- `list_push_back` to an empty list, wherever the cell is linked. -/
theorem Holds.pushBack_eq (h : Holds m li []) (n : N) : listPushBack m li (node n) =
    ⟨linkPrev m.prev (head li) (node n) (tail li), linkNext m.next (head li) (node n) (tail li),
      Function.update m.size li (m.size li + 1)⟩ := by
  have hlast : lastCell m li = head li := if_pos (h.listEmpty_iff.mpr rfl)
  rw [listPushBack_eq, hlast]

theorem Holds.pushBack_nil (h : Holds m li []) (n : N) : Holds (listPushBack m li (node n)) li [n] := by
  rw [h.pushBack_eq]
  refine ⟨?_, List.nodup_singleton n, .inl (Chain.link_single ?_)⟩
  · simp [h.size]
  · simp

/-- It writes to no other list that the cell is not in. -/
theorem Holds.pushBack_frame (h : Holds m li []) (hne : li' ≠ li) (hn : n ∉ xs) :
    (listPushBack m li (node n)).size li' = m.size li' ∧ ∀ y ∈ cells li' xs,
      (listPushBack m li (node n)).next y = m.next y ∧ (listPushBack m li (node n)).prev y = m.prev y := by
  rw [h.pushBack_eq]
  refine ⟨Function.update_of_ne hne _ _, fun y hy => ?_⟩
  have hy' : y ∉ cells li [n] := by
    apply not_mem_cells hne _ hy
    intro x hx hx'
    exact hn (List.mem_singleton.mp hx' ▸ hx)
  simp only [cells, List.map_cons, List.map_nil, List.cons_append, List.nil_append, List.mem_cons, List.not_mem_nil,
    or_false, not_or] at hy'
  exact ⟨linkNext_of_ne hy'.1 hy'.2.1, linkPrev_of_ne hy'.2.2 hy'.2.1⟩

theorem Holds.pushBack_other (h : Holds m li []) (h' : Holds m li' xs) (hne : li' ≠ li) (hn : n ∉ xs) :
    Holds (listPushBack m li (node n)) li' xs := by
  obtain ⟨hsize, hlinks⟩ := h.pushBack_frame hne hn
  exact h'.congr hsize hlinks

/-- A list holds one sequence. -/
theorem Holds.unique {ys : List N} (h : Holds m li xs) (h' : Holds m li ys) : ys = xs :=
  congrArg Prod.fst (h'.reads.next_walk.symm.trans h.reads.next_walk)

/-- A list that the cell is in is none afterwards. -/
theorem Holds.pushBack_linked (h : Holds m li []) (h' : Holds m li' xs) (hne : li' ≠ li) (hn : n ∈ xs)
    (ys : List N) : ¬ Holds (listPushBack m li (node n)) li' ys := by
  intro hys
  have hnext : (listPushBack m li (node n)).next (node n) = tail li := by
    rw [h.pushBack_eq]
    exact linkNext_self
  by_cases hmem : n ∈ ys
  · -- the cell leads to the end of the other list
    obtain ⟨as, bs, rfl⟩ := List.append_of_mem hmem
    obtain ⟨l₁, q, r, l₂, hcells, -⟩ := cells_around li' as bs n
    have hc := hys.chain (by simp)
    rw [hcells, ← List.singleton_append, ← List.append_assoc] at hc
    have hr : r ∈ cells li' (as ++ n :: bs) := by simp [hcells]
    rw [← hc.next_prev.1, hnext] at hr
    simp [cells, hne.symm] at hr
  · -- what is read was there before
    obtain ⟨hsize, hlinks⟩ := h.pushBack_frame hne hmem
    have hback : Holds m li' ys := hys.congr hsize.symm fun y hy => ⟨(hlinks y hy).1.symm, (hlinks y hy).2.symm⟩
    exact hmem (h'.unique hback ▸ hn)

end

/-! ### The structs of a table -/

section
variable {t : PageTable} {key : ℕ → BitVec 64} {last : BitVec 64 → Option ℕ} {σ : Fin t.con.buckets → List ℕ} {n : ℕ}

theorem PageTable.mem_pages (ht : Table t.con key last σ) : n ∈ t.pages ↔ last (key n) = some n := by
  unfold PageTable.pages
  rw [hashtableForeach_represents ht.represents, Option.getD_some]
  exact ht.mem_elements

theorem PageTable.not_linked (ht : Table t.con key last σ) (hn : n ∉ t.pages) (b : Fin t.con.buckets) : n ∉ σ b := by
  intro hb
  have hfound := (ht.last_iff _ _).mpr ⟨ht.placed b n hb ▸ hb, ht.lawful.equiv.refl _⟩
  exact hn ((PageTable.mem_pages ht).mpr hfound)

end

/-! ### One call -/

section
variable {kcalloc : PhysMem → PhysMem × BitVec 64} {userBase : BitVec 64} {stack : ℕ} {s s' : PageMem × PageTable}
  {aliases : ℕ → List ℕ} {p : BitVec 64} {f pg : ℕ}

/-- What a call does to a struct that is there. -/
def reloaded (kcalloc : PhysMem → PhysMem × BitVec 64) (userBase : BitVec 64) (s : PageMem × PageTable)
    (p : BitVec 64) (f pg : ℕ) : PageMem × PageTable :=
  ({ s.1 with
      pages := Function.update s.1.pages pg { s.1.pages pg with phys := f }
      aliases := listPushBack s.1.aliases f (node pg)
      words := pml4MapAddress kcalloc s.1.words s.2.root p (kernelToPhys (frameToKernaddr userBase f)) }, s.2)

theorem Consistent.next_not_mem (h : Consistent s aliases) : s.1.next ∉ s.2.pages := fun hmem =>
  Nat.lt_irrefl _ (h.allocated _ hmem)

/-- The structs of the table by their addresses. -/
theorem Consistent.find_iff (h : Consistent s aliases) : ∃ last : BitVec 64 → Option ℕ,
    (∀ p, hashtableFind s.2.con (fun n => if n = s.1.next then p else (s.1.pages n).useraddr) s.1.next =
      some (((last p).map node).getD null)) ∧
    ∀ p pg, last p = some pg ↔ pg ∈ s.2.pages ∧ (s.1.pages pg).useraddr = p := by
  obtain ⟨last, σ, ht⟩ := h.table
  refine ⟨last, fun p => ?_, fun p pg => ?_⟩
  · -- the key is in no bucket
    have hfind := (ht.write (PageTable.not_linked ht h.next_not_mem) p).find_eq s.1.next
    have hfun : Function.update (fun n => (s.1.pages n).useraddr) s.1.next p =
        fun n => if n = s.1.next then p else (s.1.pages n).useraddr := by
      funext n
      exact Function.update_apply _ _ _ _
    rw [Function.update_self, hfun] at hfind
    exact hfind
  · constructor
    · intro hp
      have haddr := ((ht.last_iff p pg).mp hp).2
      rw [h.equal] at haddr
      obtain rfl : p = (s.1.pages pg).useraddr := eq_of_beq haddr
      exact ⟨(PageTable.mem_pages ht).mpr hp, rfl⟩
    · rintro ⟨hpg, rfl⟩
      exact (PageTable.mem_pages ht).mp hpg

/-- A struct that is there gets the frame. -/
theorem Consistent.pageLoad_resident (h : Consistent s aliases) (hpg : pg ∈ s.2.pages)
    (haddr : (s.1.pages pg).useraddr = p) :
    pageLoad kcalloc userBase stack s p f = some (reloaded kcalloc userBase s p f pg) := by
  obtain ⟨last, hfind, hlast⟩ := h.find_iff
  unfold pageLoad
  dsimp only
  rw [hfind, (hlast p pg).mpr ⟨hpg, haddr⟩]
  simp [PagePtr.page?, reloaded, PageTable.root, pageReadFromDisk]

/-- `pg` holds a link of the cell that it is. -/
theorem pageLoadNew_page? {r : PageMem × Hashtable ℕ (BitVec 64) × PagePtr} (hr : pageLoadNew stack s p = some r) :
    r.2.2.page? = none := by
  obtain ⟨con, -, rfl⟩ := Option.map_eq_some_iff.mp hr
  rfl

/-- **Without a struct**, the call goes through a pointer that leads to none. -/
theorem Consistent.pageLoad_new (h : Consistent s aliases) (hno : ¬ Resident s p) :
    pageLoad kcalloc userBase stack s p f = none := by
  obtain ⟨last, hfind, hlast⟩ := h.find_iff
  have hnone : last p = none := by
    by_contra hne
    obtain ⟨pg, hpg⟩ := Option.ne_none_iff_exists'.mp hne
    exact hno ⟨pg, (hlast p pg).mp hpg⟩
  unfold pageLoad
  dsimp only
  rw [hfind, hnone, Option.map_none, Option.getD_none, Option.bind_some, if_pos rfl, Option.bind_eq_none_iff]
  rintro ⟨mem, con, pg⟩ hr
  have hpg : pg.page? = none := pageLoadNew_page? hr
  dsimp only
  rw [hpg, Option.map_none]

/-- The new struct is not in the table: the cell on the stack is. -/
theorem Consistent.pageLoadNew_pages (h : Consistent s aliases) (hstack : stack ∉ s.2.pages) (hne : stack ≠ s.1.next) :
    ∃ r, pageLoadNew stack s p = some r ∧ (r.1.pages s.1.next).useraddr = p ∧
      stack ∈ PageTable.pages { s.2 with con := r.2.1 } ∧ s.1.next ∉ PageTable.pages { s.2 with con := r.2.1 } := by
  obtain ⟨last, σ, ht⟩ := h.table
  have hkey : Function.update (fun n => (s.1.pages n).useraddr) s.1.next p = fun n =>
      (Function.update s.1.pages s.1.next ⟨0, p, false, false, .except, ⟨0, 0⟩⟩ n).useraddr :=
    (Function.comp_update Page.useraddr s.1.pages s.1.next ⟨0, p, false, false, .except, ⟨0, 0⟩⟩).symm
  have ht' := ht.write (PageTable.not_linked ht h.next_not_mem) p
  rw [hkey] at ht'
  obtain ⟨con, entries, σ', hins, htab⟩ := ht'.insert (PageTable.not_linked ht hstack)
  have hnew := congrArg (Option.map fun con => ({ s.1 with
    pages := Function.update s.1.pages s.1.next ⟨0, p, false, false, .except, ⟨0, 0⟩⟩, next := s.1.next + 1 },
      con, PagePtr.cell (con.con.prev (node stack)))) hins
  refine ⟨_, hnew, ?_, ?_, fun hmem => ?_⟩
  · dsimp only
    rw [Function.update_self]
  · apply (PageTable.mem_pages (t := { s.2 with con := _ }) htab).mpr
    exact if_pos (ht.lawful.equiv.refl _)
  · have hlast := (PageTable.mem_pages (t := { s.2 with con := _ }) htab).mp hmem
    split_ifs at hlast
    · exact hne (Option.some.inj hlast)
    · exact PageTable.not_linked ht h.next_not_mem _ ((ht.last_iff _ _).mp hlast).1

/-! ### Loading again -/

/-- The keys of the table are as they were. -/
theorem reloaded_useraddr (n : ℕ) :
    ((reloaded kcalloc userBase s p f pg).1.pages n).useraddr = (s.1.pages n).useraddr := by
  unfold reloaded
  dsimp only
  by_cases hn : n = pg
  · rw [hn, Function.update_self]
  · rw [Function.update_of_ne hn]

theorem reloaded_of_ne {n : ℕ} (hn : n ≠ pg) : (reloaded kcalloc userBase s p f pg).1.pages n = s.1.pages n :=
  Function.update_of_ne hn _ _

theorem reloaded_phys : ((reloaded kcalloc userBase s p f pg).1.pages pg).phys = f := by
  unfold reloaded
  dsimp only
  rw [Function.update_self]

/-- No struct of the table is in a free frame. -/
theorem Consistent.phys_ne (h : Consistent s aliases) (hf : FrameFree s.1 f) {n : ℕ} (hn : n ∈ s.2.pages) :
    (s.1.pages n).phys ≠ f := by
  rintro rfl
  obtain ⟨hl, hmem⟩ := h.linked n hn
  have hnil : aliases (s.1.pages n).phys = [] := List.length_eq_zero_iff.mp (hl.size.symm.trans hf.size)
  rw [hnil] at hmem
  cases hmem

/-- Another struct's frame has no alias of this one. -/
theorem Consistent.not_alias (h : Consistent s aliases) (hpg : pg ∈ s.2.pages) {n : ℕ} (hn : n ∈ s.2.pages)
    (hne : n ≠ pg) : pg ∉ aliases (s.1.pages n).phys := fun hmem =>
  hne (h.apart n hn pg hpg (h.frames n hn pg hmem).symm)

/-- **One call**: the four structures fit together again. -/
theorem Consistent.reload (h : Consistent s aliases) (hpg : pg ∈ s.2.pages) (hf : FrameFree s.1 f)
    (ht : HasTables s.1.words s.2.root p) :
    Consistent (reloaded kcalloc userBase s p f pg) (Function.update aliases f [pg]) where
  equal := h.equal
  table := by
    obtain ⟨last, σ, htab⟩ := h.table
    refine ⟨last, σ, ?_⟩
    rw [show (fun n => ((reloaded kcalloc userBase s p f pg).1.pages n).useraddr) =
      fun n => (s.1.pages n).useraddr from funext reloaded_useraddr]
    exact htab
  allocated := h.allocated
  linked n hn := by
    by_cases hne : n = pg
    · rw [hne, reloaded_phys, Function.update_self]
      exact ⟨hf.pushBack_nil pg, List.mem_singleton_self pg⟩
    · rw [reloaded_of_ne hne, Function.update_of_ne (h.phys_ne hf hn)]
      obtain ⟨hl, hmem⟩ := h.linked n hn
      exact ⟨hf.pushBack_other hl (h.phys_ne hf hn) (h.not_alias hpg hn hne), hmem⟩
  frames n hn x hx := by
    by_cases hne : n = pg
    · rw [hne, reloaded_phys, Function.update_self, List.mem_singleton] at hx
      rw [hx, hne]
    · rw [reloaded_of_ne hne, Function.update_of_ne (h.phys_ne hf hn)] at hx
      have hx' : x ≠ pg := ne_of_mem_of_not_mem hx (h.not_alias hpg hn hne)
      rw [reloaded_of_ne hx', reloaded_of_ne hne]
      exact h.frames n hn x hx
  apart n hn n' hn' he := by
    by_cases hne : n = pg <;> by_cases hne' : n' = pg
    · rw [hne, hne']
    · rw [hne, reloaded_phys, reloaded_of_ne hne'] at he
      exact absurd he.symm (h.phys_ne hf hn')
    · rw [hne', reloaded_phys, reloaded_of_ne hne] at he
      exact absurd he (h.phys_ne hf hn)
    · rw [reloaded_of_ne hne, reloaded_of_ne hne'] at he
      exact h.apart n hn n' hn' he
  tree := by
    show ProperTree (pml4MapAddress kcalloc s.1.words s.2.root p _) s.2.root
    rw [pml4MapAddress_of_pdp ht.1]
    exact h.tree.setEntry ht _

/-- The addresses of frames are multiples of 2 MiB. -/
theorem frameAligned_kernaddr (h : FrameAligned userBase) (f : ℕ) :
    FrameAligned (kernelToPhys (frameToKernaddr userBase f)) := by
  have hbase := h.toNat
  apply BitVec.eq_of_toNat_eq
  rw [BitVec.toNat_and]
  refine (Nat.and_two_pow_sub_one_eq_mod _ 21).trans ?_
  unfold kernelToPhys frameToKernaddr pageSize
  rw [BitVec.toNat_sub, BitVec.toNat_add, BitVec.toNat_ofNat, BitVec.toNat_ofNat]
  show _ = 0
  omega

/-- **The call does its work** for an address that has a struct and both tables. -/
theorem Consistent.pageLoaded (h : Consistent s aliases) (hbase : FrameAligned userBase) (hp : Canonical p)
    (hpg : pg ∈ s.2.pages) (haddr : (s.1.pages pg).useraddr = p) (hf : FrameFree s.1 f)
    (ht : HasTables s.1.words s.2.root p) : PageLoaded userBase s (reloaded kcalloc userBase s p f pg) p f where
  entry := by
    obtain ⟨last, -, hlast⟩ := h.find_iff
    refine ⟨pg, fun n => ?_, reloaded_phys, [pg], hf.pushBack_nil pg, List.count_singleton_self⟩
    rw [reloaded_useraddr]
    constructor
    · intro hn
      have hlast' := (hlast p n).mpr hn
      rw [(hlast p pg).mpr ⟨hpg, haddr⟩] at hlast'
      exact (Option.some.inj hlast').symm
    · rintro rfl
      exact ⟨hpg, haddr⟩
  root := rfl
  mapped := h.tree.mapsPage hp ht (frameAligned_kernaddr hbase f)
  others n := by
    rw [reloaded_useraddr]
    exact Iff.rfl
  kept n hn hne := by
    have hn' : n ≠ pg := by
      rintro rfl
      exact hne haddr
    refine ⟨reloaded_of_ne hn', fun xs hxs => ?_⟩
    rw [(h.linked n hn).1.unique hxs]
    exact hf.pushBack_other (h.linked n hn).1 (h.phys_ne hf hn) (h.not_alias hpg hn hn')

end

/-! ### Addresses without tables -/

/-- What `kcalloc` is relied on for where the `pdp` is missing: the block is zero and not in use, and the word that the
walk reads for it, which is in front of the block where that is no multiple of `4096`, is for no table. -/
structure KcallocPdp (r : PhysMem × BitVec 64) (pml4 addr : BitVec 64) : Prop extends KcallocTable r pml4 where
  walked : tableOf (r.1 (slot (tableOf (kernelToPhys r.2)) (pdpOffset addr))) = 0
  walked_apart : slot (tableOf (kernelToPhys r.2)) (pdpOffset addr) ≠ slot pml4 (pml4Offset addr)

section
variable {kcalloc : PhysMem → PhysMem × BitVec 64} {m : PhysMem} {pml4 addr : BitVec 64}

theorem walk_missing (h : ¬ HasTables m pml4 addr) : walk m pml4 addr = 0 := if_neg h

/-- Where a table is missing, the page is not mapped. -/
theorem walk_pml4MapAddress_missing (hnull : TablesApart pml4 0)
    (hk : pdpOf m pml4 addr = 0 → KcallocPdp (kcalloc m) pml4 addr) (h : ¬ HasTables m pml4 addr) (frame : BitVec 64) :
    walk (pml4MapAddress kcalloc m pml4 addr frame) pml4 addr = 0 := by
  by_cases hp : pdpOf m pml4 addr = 0
  · have hkc := hk hp
    rw [pml4MapAddress_of_no_pdp hp hkc.toKcallocTable, walk_setNull hnull (pgdOffset_lt addr)]
    -- the new `pdp` has no `pgd`
    apply walk_missing
    intro hl
    apply hl.2
    unfold pgdOf pdpOf
    rw [Function.update_self, tableOf_or_flags _ (by decide), Function.update_of_ne hkc.walked_apart]
    exact hkc.walked
  · have hg : pgdOf m pml4 addr = 0 := Classical.not_not.mp fun hg => h ⟨hp, hg⟩
    rw [pml4MapAddress_of_no_pgd hp hg, walk_setNull hnull (pgdOffset_lt addr)]
    exact walk_missing h

end

/-! ### Runs -/

section
variable {kcalloc : PhysMem → PhysMem × BitVec 64} {userBase : BitVec 64} {stack : ℕ} {s₀ s : PageMem × PageTable}
  {aliases : ℕ → List ℕ} {p : BitVec 64} {f : ℕ}

/-- The call, where the four structures fit together. -/
theorem Consistent.pageLoad_iff (h : Consistent s aliases) (hbase : FrameAligned userBase) (hp : Canonical p)
    (hf : FrameFree s.1 f) (hk : pdpOf s.1.words s.2.root p = 0 → KcallocPdp (kcalloc s.1.words) s.2.root p) :
    (∃ s', pageLoad kcalloc userBase stack s p f = some s' ∧ PageLoaded userBase s s' p f) ↔
      Resident s p ∧ HasTables s.1.words s.2.root p := by
  constructor
  · rintro ⟨s', hs', hl⟩
    have hr : Resident s p := by
      by_contra hno
      rw [h.pageLoad_new hno] at hs'
      cases hs'
    refine ⟨hr, ?_⟩
    by_contra hno
    obtain ⟨pg, hpg, haddr⟩ := hr
    rw [h.pageLoad_resident hpg haddr] at hs'
    have hpresent := hl.mapped.present
    rw [← Option.some.inj hs'] at hpresent
    apply hpresent
    show walk (pml4MapAddress kcalloc s.1.words s.2.root p _) s.2.root p &&& pml4Present = 0
    rw [walk_pml4MapAddress_missing h.tree.root_null hk hno]
    rfl
  · rintro ⟨⟨pg, hpg, haddr⟩, ht⟩
    exact ⟨_, h.pageLoad_resident hpg haddr, h.pageLoaded hbase hp hpg haddr hf ht⟩

/-- Right calls keep the four structures together. -/
theorem Consistent.run (h₀ : Consistent s₀ aliases)
    (hs : Transition.Reach (fun s (c : BitVec 64 × ℕ) => pageLoad kcalloc userBase stack s c.1 c.2)
      (fun s c => Canonical c.1 ∧ FrameFree s.1 c.2 ∧ Resident s c.1 ∧ HasTables s.1.words s.2.root c.1) s₀ s) :
    ∃ aliases, Consistent s aliases := by
  refine hs.invariant (I := fun s => ∃ aliases, Consistent s aliases) ⟨aliases, h₀⟩ ?_
  rintro s ⟨p, f⟩ s' ⟨aliases, h⟩ ⟨-, hf, ⟨pg, hpg, haddr⟩, ht⟩ hstep
  rw [h.pageLoad_resident hpg haddr, Option.some.injEq] at hstep
  exact ⟨_, hstep ▸ h.reload hpg hf ht⟩

end

/-- **Loading pages.**  In every run of calls for addresses that have a struct in the table, a `pdp` and a `pgd`, from
a process whose structures fit together, they fit together in every state; and one more call does its work exactly
when its address has a struct, a `pdp` and a `pgd`. -/
theorem page_load_consistent_iff {kcalloc : PhysMem → PhysMem × BitVec 64} {userBase : BitVec 64} {stack : ℕ}
    (hbase : FrameAligned userBase) {s₀ s : PageMem × PageTable} {aliases : ℕ → List ℕ} (h₀ : Consistent s₀ aliases)
    (hs : Transition.Reach (fun s (c : BitVec 64 × ℕ) => pageLoad kcalloc userBase stack s c.1 c.2)
      (fun s c => Canonical c.1 ∧ FrameFree s.1 c.2 ∧ Resident s c.1 ∧ HasTables s.1.words s.2.root c.1) s₀ s) :
    (∃ aliases, Consistent s aliases) ∧
      ∀ p f, Canonical p → FrameFree s.1 f →
        (pdpOf s.1.words s.2.root p = 0 → KcallocPdp (kcalloc s.1.words) s.2.root p) →
          ((∃ s', pageLoad kcalloc userBase stack s p f = some s' ∧ PageLoaded userBase s s' p f) ↔
            Resident s p ∧ HasTables s.1.words s.2.root p) := by
  obtain ⟨aliases, h⟩ := h₀.run hs
  exact ⟨⟨aliases, h⟩, fun p f hp hf hk => h.pageLoad_iff hbase hp hf hk⟩

/-- **The frame that a page leaves**: the page stays linked to it, and its aliases are no list any more. -/
theorem page_load_old_frame {kcalloc : PhysMem → PhysMem × BitVec 64} {userBase : BitVec 64} {stack : ℕ}
    {s s' : PageMem × PageTable} {aliases : ℕ → List ℕ} {p : BitVec 64} {f pg : ℕ} (h : Consistent s aliases)
    (hpg : pg ∈ s.2.pages) (haddr : (s.1.pages pg).useraddr = p) (hf : FrameFree s.1 f)
    (hs : pageLoad kcalloc userBase stack s p f = some s') (xs : List ℕ) :
    ¬ Holds s'.1.aliases (s.1.pages pg).phys xs := by
  rw [h.pageLoad_resident hpg haddr, Option.some.injEq] at hs
  rw [← hs]
  obtain ⟨hl, hmem⟩ := h.linked pg hpg
  exact hf.pushBack_linked hl (h.phys_ne hf hpg) hmem xs

/-! ### A small instance -/

/-- A table that `page_table_create` returns. -/
theorem Consistent.created {s : PageMem} {con : ListMem (Fin initBuckets) ℕ} {pml4 : BitVec 64}
    (ht : ProperTree s.words (kernelToPhys pml4)) (aliases : ℕ → List ℕ) :
    Consistent (s, pageTableCreate con pml4) aliases := by
  have htab := pageTableCreate_table con pml4 fun n => (s.pages n).useraddr
  have hnil : (pageTableCreate con pml4).pages = [] := by
    unfold PageTable.pages
    rw [hashtableForeach_represents htab.represents]
    simp
  have hno : ∀ pg, pg ∉ (pageTableCreate con pml4).pages := fun pg => hnil ▸ List.not_mem_nil
  exact ⟨rfl, ⟨_, _, htab⟩, fun pg hpg => absurd hpg (hno pg), fun pg hpg => absurd hpg (hno pg),
    fun pg hpg => absurd hpg (hno pg), fun pg hpg => absurd hpg (hno pg), ht⟩

theorem parentTree_pdp {a : BitVec 64} (h : pdpOf parentTree 0x1000 a ≠ 0) :
    pml4Offset a = 0 ∧ pdpOf parentTree 0x1000 a = 0x2000 := by
  have hslot : 0x1000 + 8 * (pml4Offset a).toNat = 0x1000 ∨ 0x1000 + 8 * (pml4Offset a).toNat = 0x2018 ∨
      0x1000 + 8 * (pml4Offset a).toNat = 0x3000 := tableOf_parentTree (t := 0x1000) (by decide) (pml4Offset_lt a) h
  have hlt := pml4Offset_lt a
  have h₀ : pml4Offset a = 0 := by
    apply BitVec.eq_of_toNat_eq
    show (pml4Offset a).toNat = 0
    omega
  refine ⟨h₀, ?_⟩
  unfold pdpOf
  rw [h₀]
  decide

theorem parentTree_pgd {a : BitVec 64} (h : HasTables parentTree 0x1000 a) :
    pdpOffset a = 3 ∧ pgdOf parentTree 0x1000 a = 0x3000 := by
  have hg := h.2
  unfold pgdOf at hg ⊢
  rw [(parentTree_pdp h.1).2] at hg ⊢
  have hslot : 0x2000 + 8 * (pdpOffset a).toNat = 0x1000 ∨ 0x2000 + 8 * (pdpOffset a).toNat = 0x2018 ∨
      0x2000 + 8 * (pdpOffset a).toNat = 0x3000 := tableOf_parentTree (t := 0x2000) (by decide) (pdpOffset_lt a) hg
  have hlt := pdpOffset_lt a
  have h₃ : pdpOffset a = 3 := by
    apply BitVec.eq_of_toNat_eq
    show (pdpOffset a).toNat = 3
    omega
  refine ⟨h₃, ?_⟩
  rw [h₃]
  decide

theorem parentTree_proper : ProperTree parentTree 0x1000 where
  aligned := by decide
  root_null := tableOf_apart_null (e := 0x1000) (by decide)
  root_pdp a ha := by
    rw [(parentTree_pdp ha).2]
    exact tableOf_apart (e := 0x1000) (f := 0x2000) (by decide)
  root_pgd a ha := by
    rw [(parentTree_pgd ha).2]
    exact tableOf_apart (e := 0x1000) (f := 0x3000) (by decide)
  pdp_pgd a b ha hb := by
    rw [(parentTree_pdp ha).2, (parentTree_pgd hb).2]
    decide
  pdp_shared a b ha hab := by
    rw [(parentTree_pdp ha).1, (parentTree_pdp (hab ▸ ha)).1]
  pgd_shared a b ha hb _ := by
    rw [(parentTree_pdp ha.1).1, (parentTree_pdp hb.1).1, (parentTree_pgd ha).1, (parentTree_pgd hb).1]
    exact ⟨rfl, rfl⟩

/-- The page of the parent fits together with its frame. -/
theorem parent_consistent : Consistent (parentMem, parentTable) (Function.update (fun _ => []) 1 [0]) where
  equal := rfl
  table := parentTable_valid.table
  allocated := parentTable_valid.allocated
  linked pg hpg := by
    refine ⟨parentTable_valid.represents.holds _, ?_⟩
    rw [parentTable_pages, List.mem_singleton] at hpg
    rw [hpg]
    exact List.mem_singleton_self 0
  frames _ _ _ _ := rfl
  apart pg hpg pg' hpg' _ := by
    rw [parentTable_pages, List.mem_singleton] at hpg hpg'
    rw [hpg, hpg']
  tree := parentTree_proper

theorem parent_frame {f : ℕ} (hf : f ≠ 1) : FrameFree parentMem f := by
  have h := parentTable_valid.represents.holds f
  rw [Function.update_of_ne hf] at h
  exact h

/-- The process of the parent after its page was loaded into the third frame. -/
def reloadedParent : PageMem × PageTable :=
  reloaded parentKcalloc (physToKernelAddr 0x1000000) (parentMem, parentTable) 0xC0000000 2 0

/-- Then it is loaded into the fourth. -/
theorem page_load_consistent_iff_again : ∃ s',
    pageLoad parentKcalloc (physToKernelAddr 0x1000000) 5 reloadedParent 0xC0000000 3 = some s' ∧
      PageLoaded (physToKernelAddr 0x1000000) reloadedParent s' 0xC0000000 3 := by
  have hpg : 0 ∈ parentTable.pages := by
    rw [parentTable_pages]
    exact List.mem_singleton_self 0
  have hpage : (parentMem.pages 0).useraddr = 0xC0000000 := rfl
  have hcanon : Canonical 0xC0000000 := .inl (by decide)
  have htables : HasTables parentMem.words parentTable.root 0xC0000000 := by decide
  have hfree : FrameFree parentMem 2 := parent_frame (by decide)
  have hfree' : FrameFree reloadedParent.1 3 :=
    hfree.pushBack_other (parent_frame (by decide)) (by decide) List.not_mem_nil
  have htables' : HasTables reloadedParent.1.words reloadedParent.2.root 0xC0000000 := by decide
  obtain ⟨-, hiff⟩ := @page_load_consistent_iff parentKcalloc (physToKernelAddr 0x1000000) 5 (by decide) _ reloadedParent _
    parent_consistent (.next (a := (0xC0000000, 2)) .start ⟨hcanon, hfree, ⟨0, hpg, hpage⟩, htables⟩
      (parent_consistent.pageLoad_resident hpg hpage))
  exact (hiff 0xC0000000 3 hcanon hfree' fun h => absurd h htables'.1).mpr ⟨⟨0, hpg, reloaded_useraddr 0⟩, htables'⟩

/-- **The first page of a process**: its tables are there, and the call is not right, whatever the heap returns and
whatever is on the stack. -/
theorem page_load_first : Consistent (parentMem, emptyTable (physToKernelAddr 0x1000)) (fun _ => []) ∧
    Canonical 0xC0000000 ∧ FrameFree parentMem 2 ∧ FrameAligned (physToKernelAddr 0x1000000) ∧
    HasTables parentMem.words (emptyTable (physToKernelAddr 0x1000)).root 0xC0000000 ∧
    ∀ kcalloc stack, ¬ ∃ s', pageLoad kcalloc (physToKernelAddr 0x1000000) stack
        (parentMem, emptyTable (physToKernelAddr 0x1000)) 0xC0000000 2 = some s' ∧
      PageLoaded (physToKernelAddr 0x1000000) (parentMem, emptyTable (physToKernelAddr 0x1000)) s' 0xC0000000 2 := by
  have hc : Consistent (parentMem, emptyTable (physToKernelAddr 0x1000)) (fun _ => []) := .created parentTree_proper _
  have hnil : (emptyTable (physToKernelAddr 0x1000)).pages = [] := by decide
  have hno : ¬ Resident (parentMem, emptyTable (physToKernelAddr 0x1000)) 0xC0000000 := by
    rintro ⟨pg, hpg, -⟩
    exact List.not_mem_nil (hnil ▸ hpg)
  refine ⟨hc, .inl (by decide), parent_frame (by decide), by decide, by decide, ?_⟩
  rintro kcalloc stack ⟨s', hs', -⟩
  rw [hc.pageLoad_new hno] at hs'
  cases hs'

end Dunkos
