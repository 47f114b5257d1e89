import Dunkos.Lib.Loop
import Mathlib.Data.List.Basic
import Mathlib.Data.BitVec

/-! # Going through an inode (`inode_disk_foreach`)

An inode has its first extents in its header, then a table of extents, then a block of tables, then a block of
such blocks.  `InodeDisk.extents` is what the format says; `foreach_iff` says for which inodes
`inode_disk_foreach` calls its action on just these, in order: on the second level for full ones only, on the third
for those where sector 127 happens to hold the last table of the second level. -/

namespace Dunkos

open Loop

def inodeHeaderExtents : ℕ := 59

/-- `INODE_DISK_NPOS`. -/
def inodeDiskNpos : BitVec 32 := -1

structure InodeExtent where
  start : BitVec 32
  sectors : BitVec 32
deriving DecidableEq, Repr

/-- `INODE_DISK_EXTENTS`. -/
def inodeDiskExtents : ℕ := 64

/-- `INODE_DISK_INDICES`. -/
def inodeDiskIndices : ℕ := 128

/-- The words of a sector.  Beyond the first 128 they are those of the memory behind the buffer. -/
abbrev Sector := ℕ → BitVec 32

/-- The sectors of `fs_block`. -/
abbrev Disk := BitVec 32 → Sector

def Sector.extent (b : Sector) (i : ℕ) : InodeExtent := ⟨b (2 * i), b (2 * i + 1)⟩

/-- `struct inode_disk`, as far as going through it reads it. -/
structure InodeDisk where
  nextExtent : BitVec 32
  nextFirstLevel : BitVec 32
  nextSecondLevel : BitVec 32
  firstLevelTable : BitVec 32
  secondLevelTable : BitVec 32
  thirdLevelTable : BitVec 32
  headerExtents : ℕ → InodeExtent

/-- The disk, and what the actions and the condition work on (`aux`). -/
structure Visit (σ : Type) where
  disk : Disk
  aux : σ

namespace InodeDisk

section
variable (idisk : InodeDisk)

def atHeader : Bool := idisk.firstLevelTable == inodeDiskNpos

def atFirstLevel : Bool := idisk.firstLevelTable != inodeDiskNpos && idisk.secondLevelTable == inodeDiskNpos &&
  idisk.thirdLevelTable == inodeDiskNpos

def atSecondLevel : Bool := idisk.secondLevelTable != inodeDiskNpos && idisk.thirdLevelTable == inodeDiskNpos

def atThirdLevel : Bool := idisk.thirdLevelTable != inodeDiskNpos

end

section
variable {σ : Type} (idisk : InodeDisk) (exta : InodeExtent → σ → σ) (indexTablea : Option (BitVec 32 → σ → σ))
  (cond : Option (σ → Bool))

/-- `ignore_cond || cond(aux)`. -/
def goOn (s : Visit σ) : Bool :=
  match cond with
  | none => true
  | some cond => cond s.aux

def callExtent (e : InodeExtent) (s : Visit σ) : Visit σ := { s with aux := exta e s.aux }

/-- `if (!ignore_indices) index_tablea(index, aux)`. -/
def callIndex (index : BitVec 32) (s : Visit σ) : Visit σ :=
  match indexTablea with
  | none => s
  | some indexTablea => { s with aux := indexTablea index s.aux }

/-- The loops over the first `n` extents of a table. -/
def foreachExtents (n : ℕ) (extents : Sector) (s : Visit σ) : Visit σ :=
  forWhile (goOn cond) (fun i => callExtent exta (extents.extent i)) n 0 s

def foreachHeader (s : Visit σ) : Visit σ :=
  let numExtents := if !idisk.atHeader then inodeHeaderExtents else idisk.nextExtent.toNat
  forWhile (goOn cond) (fun i => callExtent exta (idisk.headerExtents i)) numExtents 0 s

def foreachFirstLevel (s : Visit σ) : Visit σ :=
  let s := idisk.foreachHeader exta cond s
  let extents := s.disk idisk.firstLevelTable
  let numExtents := if !idisk.atFirstLevel then inodeDiskExtents else idisk.nextExtent.toNat
  let s := foreachExtents exta cond numExtents extents s
  { s with disk := Function.update s.disk idisk.firstLevelTable extents }

def foreachSecondLevel (s : Visit σ) : Visit σ :=
  let s := idisk.foreachFirstLevel exta cond s
  let atSecondLevel := !idisk.atSecondLevel
  if !atSecondLevel || idisk.nextFirstLevel != 0 then
    let indices := s.disk idisk.secondLevelTable
    let extentBlocks := if !atSecondLevel then inodeDiskIndices else (idisk.nextFirstLevel - 1).toNat
    let s := forWhile (goOn cond) (fun i s =>
      let extents := s.disk (indices i)
      foreachExtents exta cond inodeDiskExtents extents (callIndex indexTablea (indices i) s)) extentBlocks 0 s
    if atSecondLevel then
      foreachExtents exta cond idisk.nextExtent.toNat (s.disk (idisk.nextFirstLevel - 1)) s
    else s
  else s

/-- `if (!ignore_indices && (ignore_cond || cond(aux))) index_tablea(index, aux)`. -/
def callIndexWhile (index : BitVec 32) (s : Visit σ) : Visit σ :=
  if goOn cond s then callIndex indexTablea index s else s

/-- The round of the third level for one table of extents. -/
def foreachTable (index : BitVec 32) (s : Visit σ) : Visit σ :=
  callIndexWhile indexTablea cond index (foreachExtents exta cond inodeDiskExtents (s.disk index) s)

def foreachThirdLevel (s : Visit σ) : Visit σ :=
  let s := idisk.foreachSecondLevel exta indexTablea cond s
  if idisk.nextSecondLevel != 0 then
    let sndlvlIndices := s.disk idisk.thirdLevelTable
    let s := forWhile (goOn cond) (fun sndlvl s =>
      let fstlvlIndices := s.disk (sndlvlIndices sndlvl)
      let s := forWhile (goOn cond) (fun fstlvl => foreachTable exta indexTablea cond (fstlvlIndices fstlvl))
        inodeDiskIndices 0 s
      callIndexWhile indexTablea cond (sndlvlIndices sndlvl) s) (idisk.nextSecondLevel - 1).toNat 0 s
    let fstlvlIndices := s.disk (sndlvlIndices (idisk.nextSecondLevel - 1).toNat)
    let s := forWhile (goOn cond) (fun fstlvl => foreachTable exta indexTablea cond (fstlvlIndices fstlvl))
      (idisk.nextFirstLevel - 1).toNat 0 s
    let last := fstlvlIndices (idisk.nextFirstLevel - 1).toNat
    let extents := s.disk last
    foreachExtents exta cond idisk.nextExtent.toNat extents (callIndexWhile indexTablea cond last s)
  else s

/-- `inode_disk_foreach`; its assertion always holds (`at_some_level`). -/
def foreach (s : Visit σ) : Visit σ :=
  if idisk.atHeader then idisk.foreachHeader exta cond s
  else if idisk.atFirstLevel then idisk.foreachFirstLevel exta cond s
  else if idisk.atSecondLevel then idisk.foreachSecondLevel exta indexTablea cond s
  else if idisk.atThirdLevel then idisk.foreachThirdLevel exta indexTablea cond s
  else s

end

theorem at_some_level (idisk : InodeDisk) :
    idisk.atHeader || idisk.atFirstLevel || idisk.atSecondLevel || idisk.atThirdLevel := by
  unfold atHeader atFirstLevel atSecondLevel atThirdLevel
  by_cases h₁ : idisk.firstLevelTable = inodeDiskNpos <;> by_cases h₂ : idisk.secondLevelTable = inodeDiskNpos <;>
    by_cases h₃ : idisk.thirdLevelTable = inodeDiskNpos <;> simp [h₁, h₂, h₃]

/-! ### What the actions keep -/

section
variable {σ : Type} {P : σ → Prop} {idisk : InodeDisk} {exta : InodeExtent → σ → σ}
  {indexTablea : Option (BitVec 32 → σ → σ)} {cond : Option (σ → Bool)}

theorem foreachExtents_keeps (he : ∀ e a, P a → P (exta e a)) (n : ℕ) (extents : Sector) {s : Visit σ}
    (hs : P s.aux) : P (foreachExtents exta cond n extents s).aux :=
  forWhile_keeps (P := fun v : Visit σ => P v.aux) (fun _ _ => he _ _) n 0 hs

theorem foreachHeader_keeps (he : ∀ e a, P a → P (exta e a)) {s : Visit σ} (hs : P s.aux) :
    P (idisk.foreachHeader exta cond s).aux :=
  forWhile_keeps (P := fun v : Visit σ => P v.aux) (fun _ _ => he _ _) _ 0 hs

theorem foreachFirstLevel_keeps (he : ∀ e a, P a → P (exta e a)) {s : Visit σ} (hs : P s.aux) :
    P (idisk.foreachFirstLevel exta cond s).aux :=
  foreachExtents_keeps he _ _ (foreachHeader_keeps he hs)

variable (hi : ∀ f, indexTablea = some f → ∀ t a, P a → P (f t a))
include hi

theorem callIndex_keeps (t : BitVec 32) {s : Visit σ} (hs : P s.aux) : P (callIndex indexTablea t s).aux := by
  unfold callIndex
  cases h : indexTablea with
  | none => exact hs
  | some f => exact hi f h t s.aux hs

theorem callIndexWhile_keeps (t : BitVec 32) {s : Visit σ} (hs : P s.aux) :
    P (callIndexWhile indexTablea cond t s).aux := by
  unfold callIndexWhile
  split
  · exact callIndex_keeps hi t hs
  · exact hs

variable (he : ∀ e a, P a → P (exta e a))
include he

theorem foreachSecondLevel_keeps {s : Visit σ} (hs : P s.aux) :
    P (idisk.foreachSecondLevel exta indexTablea cond s).aux := by
  have hfirst : P (idisk.foreachFirstLevel exta cond s).aux := foreachFirstLevel_keeps he hs
  unfold foreachSecondLevel
  dsimp only
  split
  · split
    · refine foreachExtents_keeps he _ _ ?_
      exact forWhile_keeps (P := fun v : Visit σ => P v.aux)
        (fun _ v hv => foreachExtents_keeps he _ _ (callIndex_keeps hi _ hv)) _ 0 hfirst
    · exact forWhile_keeps (P := fun v : Visit σ => P v.aux)
        (fun _ v hv => foreachExtents_keeps he _ _ (callIndex_keeps hi _ hv)) _ 0 hfirst
  · exact hfirst

theorem foreachTables_keeps (tables : Sector) (n : ℕ) {s : Visit σ} (hs : P s.aux) :
    P (forWhile (goOn cond) (fun i => foreachTable exta indexTablea cond (tables i)) n 0 s).aux :=
  forWhile_keeps (P := fun v : Visit σ => P v.aux)
    (fun _ _ hv => callIndexWhile_keeps hi _ (foreachExtents_keeps he _ _ hv)) n 0 hs

theorem foreachThirdLevel_keeps {s : Visit σ} (hs : P s.aux) :
    P (idisk.foreachThirdLevel exta indexTablea cond s).aux := by
  have hsecond : P (idisk.foreachSecondLevel exta indexTablea cond s).aux := foreachSecondLevel_keeps hi he hs
  unfold foreachThirdLevel
  dsimp only
  split
  · refine foreachExtents_keeps he _ _ (callIndexWhile_keeps hi _ (foreachTables_keeps hi he _ _ ?_))
    exact forWhile_keeps (P := fun v : Visit σ => P v.aux)
      (fun _ _ hv => callIndexWhile_keeps hi _ (foreachTables_keeps hi he _ _ hv)) _ 0 hsecond
  · exact hsecond

/-- **Going through an inode** keeps what its actions keep, whatever the inode. -/
theorem foreach_keeps {s : Visit σ} (hs : P s.aux) : P (idisk.foreach exta indexTablea cond s).aux := by
  unfold foreach
  split_ifs
  · exact foreachHeader_keeps he hs
  · exact foreachFirstLevel_keeps he hs
  · exact foreachSecondLevel_keeps hi he hs
  · exact foreachThirdLevel_keeps hi he hs
  · exact hs

end

/-! ### The format -/

section
variable (disk : Disk) (idisk : InodeDisk)

/-- The first `n` extents of a table. -/
def tableExtents (n : ℕ) (t : BitVec 32) : List InodeExtent := (List.range n).map (disk t).extent

/-- The tables that an index block lists. -/
def indexBlock (n : ℕ) (t : BitVec 32) : List (BitVec 32) := (List.range n).map (disk t)

/-- The tables of extents in use, in the order of the file. -/
def tables : List (BitVec 32) :=
  if idisk.atHeader then []
  else if idisk.atFirstLevel then [idisk.firstLevelTable]
  else if idisk.atSecondLevel then
    idisk.firstLevelTable :: indexBlock disk idisk.nextFirstLevel.toNat idisk.secondLevelTable
  else
    let blocks := indexBlock disk idisk.nextSecondLevel.toNat idisk.thirdLevelTable
    idisk.firstLevelTable :: indexBlock disk inodeDiskIndices idisk.secondLevelTable ++
      blocks.dropLast.flatMap (indexBlock disk inodeDiskIndices) ++
      blocks.getLast?.elim [] (indexBlock disk idisk.nextFirstLevel.toNat)

/-- What tables hold of which the last one has `n` extents, and the others are full. -/
def filled (n : ℕ) (ts : List (BitVec 32)) : List InodeExtent :=
  ts.dropLast.flatMap (tableExtents disk inodeDiskExtents) ++ ts.getLast?.elim [] (tableExtents disk n)

/-- The extents of an inode, in the order of the file. -/
def extents : List InodeExtent :=
  if idisk.atHeader then (List.range idisk.nextExtent.toNat).map idisk.headerExtents
  else (List.range inodeHeaderExtents).map idisk.headerExtents ++ filled disk idisk.nextExtent.toNat (tables disk idisk)

end

/-- The counters are in range. -/
structure Formed (idisk : InodeDisk) : Prop where
  header : idisk.atHeader → idisk.nextExtent.toNat ≤ inodeHeaderExtents
  table : ¬ idisk.atHeader → idisk.nextExtent.toNat ≤ inodeDiskExtents
  firstLevel : idisk.atSecondLevel ∨ idisk.atThirdLevel → idisk.nextFirstLevel.toNat ≤ inodeDiskIndices
  secondLevel : idisk.atThirdLevel → idisk.nextSecondLevel.toNat ≤ inodeDiskIndices

/-! ### What the code visits -/

section
variable {σ : Type} (disk : Disk) {inv : σ → Prop} {out : σ → List InodeExtent} {exta : InodeExtent → σ → σ}
  {indexTablea : Option (BitVec 32 → σ → σ)}

/-- While `inv` holds, the extent action appends its extent to an output, and the other one leaves that alone. -/
structure Records (inv : σ → Prop) (out : σ → List InodeExtent) (exta : InodeExtent → σ → σ)
    (indexTablea : Option (BitVec 32 → σ → σ)) : Prop where
  extent : ∀ e a, inv a → inv (exta e a) ∧ out (exta e a) = out a ++ [e]
  index : ∀ f, indexTablea = some f → ∀ t a, inv a → inv (f t a) ∧ out (f t a) = out a

/-- `f` calls the extent action on `es`, when the disk has these contents. -/
abbrev Visits (disk : Disk) (inv : σ → Prop) (out : σ → List InodeExtent) (f : Visit σ → Visit σ)
    (es : List InodeExtent) : Prop :=
  Emits (fun s => s.disk = disk ∧ inv s.aux) (fun s => out s.aux) f es

theorem visits_extent (h : Records inv out exta indexTablea) (e : InodeExtent) :
    Visits disk inv out (callExtent exta e) [e] := by
  intro s hs
  obtain ⟨hi, ho⟩ := h.extent e s.aux hs.2
  exact ⟨⟨hs.1, hi⟩, ho⟩

theorem goOn_none (s : Visit σ) : goOn none s = true := rfl

theorem visits_extents (h : Records inv out exta indexTablea) (n : ℕ) (t : BitVec 32) :
    Visits disk inv out (foreachExtents exta none n (disk t)) (tableExtents disk n t) := by
  rw [tableExtents, List.map_eq_flatMap]
  exact emits_forRange goOn_none n fun i _ => visits_extent disk h _

theorem visits_index (h : Records inv out exta indexTablea) (t : BitVec 32) :
    Visits disk inv out (callIndex indexTablea t) [] := by
  refine .silent fun s hs => ?_
  unfold callIndex
  cases hi : indexTablea with
  | none => exact ⟨hs, rfl⟩
  | some f =>
      obtain ⟨hinv, ho⟩ := h.index f hi t s.aux hs.2
      exact ⟨⟨hs.1, hinv⟩, ho⟩

theorem visits_indexWhile (h : Records inv out exta indexTablea) (t : BitVec 32) :
    Visits disk inv out (callIndexWhile indexTablea none t) [] :=
  visits_index disk h t

theorem visits_table (h : Records inv out exta indexTablea) (t : BitVec 32) :
    Visits disk inv out (foreachTable exta indexTablea none t) (tableExtents disk inodeDiskExtents t) := by
  refine .of_eq fun s hs => ⟨fun s => callIndexWhile indexTablea none t
    (foreachExtents exta none inodeDiskExtents (disk t) s), ?_, ?_⟩
  · rw [foreachTable, hs.1]
  · have hcomp := (visits_extents disk h inodeDiskExtents t).comp (visits_indexWhile disk h t)
    rwa [List.append_nil] at hcomp

variable (idisk : InodeDisk)

theorem visits_header (h : Records inv out exta indexTablea) : Visits disk inv out (idisk.foreachHeader exta none)
    ((List.range (if idisk.atHeader then idisk.nextExtent.toNat else inodeHeaderExtents)).map idisk.headerExtents) := by
  have hn : (if idisk.atHeader then idisk.nextExtent.toNat else inodeHeaderExtents) =
      if !idisk.atHeader then inodeHeaderExtents else idisk.nextExtent.toNat := by
    cases idisk.atHeader <;> rfl
  rw [hn, List.map_eq_flatMap]
  exact emits_forRange goOn_none _ fun i _ => visits_extent disk h _

theorem visits_firstLevel (h : Records inv out exta indexTablea) (hh : idisk.atHeader = false) :
    Visits disk inv out (idisk.foreachFirstLevel exta none)
      ((List.range inodeHeaderExtents).map idisk.headerExtents ++
        tableExtents disk (if idisk.atFirstLevel then idisk.nextExtent.toNat else inodeDiskExtents) idisk.firstLevelTable) := by
  have hheader := visits_header disk idisk h
  rw [hh] at hheader
  have hn : (if idisk.atFirstLevel then idisk.nextExtent.toNat else inodeDiskExtents) =
      if !idisk.atFirstLevel then inodeDiskExtents else idisk.nextExtent.toNat := by
    cases idisk.atFirstLevel <;> rfl
  intro s hs
  obtain ⟨hd, ho⟩ := hheader s hs
  obtain ⟨hd', ho'⟩ := visits_extents disk h
    (if idisk.atFirstLevel then idisk.nextExtent.toNat else inodeDiskExtents) idisk.firstLevelTable _ hd
  unfold foreachFirstLevel
  dsimp only at hd hd' ho ho' ⊢
  rw [hd.1, ← hn, hd'.1, Function.update_eq_self, ho', ho, List.append_assoc]
  exact ⟨⟨rfl, hd'.2⟩, rfl⟩

/-- What the second level adds. -/
def secondVisited (disk : Disk) (idisk : InodeDisk) : List InodeExtent :=
  if idisk.atSecondLevel then
    (indexBlock disk inodeDiskIndices idisk.secondLevelTable).flatMap (tableExtents disk inodeDiskExtents)
  else if idisk.nextFirstLevel = 0 then []
  else (indexBlock disk (idisk.nextFirstLevel - 1).toNat idisk.secondLevelTable).flatMap (tableExtents disk inodeDiskExtents) ++
    tableExtents disk idisk.nextExtent.toNat (idisk.nextFirstLevel - 1)

/-- What the third level adds. -/
def thirdVisited (disk : Disk) (idisk : InodeDisk) : List InodeExtent :=
  if idisk.nextSecondLevel = 0 then []
  else
    let block := disk idisk.thirdLevelTable (idisk.nextSecondLevel - 1).toNat
    (indexBlock disk (idisk.nextSecondLevel - 1).toNat idisk.thirdLevelTable).flatMap (fun b =>
        (indexBlock disk inodeDiskIndices b).flatMap (tableExtents disk inodeDiskExtents)) ++
      (indexBlock disk (idisk.nextFirstLevel - 1).toNat block).flatMap (tableExtents disk inodeDiskExtents) ++
      tableExtents disk idisk.nextExtent.toNat (disk block (idisk.nextFirstLevel - 1).toNat)

/-- The loop over the tables of an index block, when a round calls the index action first. -/
theorem visits_indexFirst (h : Records inv out exta indexTablea) (n : ℕ) (b : BitVec 32) :
    Visits disk inv out (forWhile (goOn none) (fun i s =>
        foreachExtents exta none inodeDiskExtents (s.disk (disk b i)) (callIndex indexTablea (disk b i) s)) n 0)
      ((indexBlock disk n b).flatMap (tableExtents disk inodeDiskExtents)) := by
  rw [indexBlock, List.flatMap_map]
  refine emits_forRange goOn_none n fun i _ => .of_eq fun s hs => ⟨fun s =>
    foreachExtents exta none inodeDiskExtents (disk (disk b i)) (callIndex indexTablea (disk b i) s), by rw [hs.1], ?_⟩
  have hcomp := (visits_index disk h (disk b i)).comp (visits_extents disk h inodeDiskExtents (disk b i))
  rwa [List.nil_append] at hcomp

theorem visits_tables (h : Records inv out exta indexTablea) (n : ℕ) (b : BitVec 32) :
    Visits disk inv out (forWhile (goOn none) (fun i => foreachTable exta indexTablea none (disk b i)) n 0)
      ((indexBlock disk n b).flatMap (tableExtents disk inodeDiskExtents)) := by
  rw [indexBlock, List.flatMap_map]
  exact emits_forRange goOn_none n fun i _ => visits_table disk h (disk b i)

theorem visits_secondLevel (h : Records inv out exta indexTablea) (hh : idisk.atHeader = false)
    (hf : idisk.atFirstLevel = false) : Visits disk inv out (idisk.foreachSecondLevel exta indexTablea none)
      ((List.range inodeHeaderExtents).map idisk.headerExtents ++
        tableExtents disk inodeDiskExtents idisk.firstLevelTable ++ secondVisited disk idisk) := by
  have hfirst := visits_firstLevel disk idisk h hh
  rw [if_neg (Bool.eq_false_iff.mp hf)] at hfirst
  unfold secondVisited
  -- the flag of the code is the negation of what its name says
  cases hat : idisk.atSecondLevel with
  | true =>
      refine .of_eq fun s hs => ⟨_, ?_, hfirst.comp (visits_indexFirst disk h inodeDiskIndices idisk.secondLevelTable)⟩
      have hd := (hfirst s hs).1.1
      unfold foreachSecondLevel
      simp only [hat, hd, Bool.not_true, Bool.not_false, Bool.true_or, if_true, Bool.false_eq_true, if_false]
  | false =>
      rw [if_neg Bool.false_ne_true]
      by_cases hn : idisk.nextFirstLevel = 0
      · rw [if_pos hn, List.append_nil]
        refine .of_eq fun s hs => ⟨_, ?_, hfirst⟩
        unfold foreachSecondLevel
        simp only [hat, hn, Bool.not_true, Bool.not_false, Bool.false_or, bne_self_eq_false, Bool.false_eq_true, if_false]
      · rw [if_neg hn]
        have hfull := visits_indexFirst disk h (idisk.nextFirstLevel - 1).toNat idisk.secondLevelTable
        have hlast := visits_extents disk h idisk.nextExtent.toNat (idisk.nextFirstLevel - 1)
        refine .of_eq fun s hs => ⟨_, ?_, hfirst.comp (hfull.comp hlast)⟩
        have hd := (hfirst s hs).1
        have hd' := (hfull _ hd).1.1
        have hne : (idisk.nextFirstLevel != 0) = true := bne_iff_ne.mpr hn
        unfold foreachSecondLevel
        simp only [hat, hd.1, hd', hne, Bool.not_true, Bool.not_false, Bool.false_or, if_true, Bool.false_eq_true, if_false]

/-- A round of the third level for a full index block. -/
theorem visits_block (h : Records inv out exta indexTablea) (b : BitVec 32) :
    Visits disk inv out (fun s => callIndexWhile indexTablea none b
        (forWhile (goOn none) (fun i => foreachTable exta indexTablea none (s.disk b i)) inodeDiskIndices 0 s))
      ((indexBlock disk inodeDiskIndices b).flatMap (tableExtents disk inodeDiskExtents)) := by
  have hcomp := (visits_tables disk h inodeDiskIndices b).comp (visits_indexWhile disk h b)
  rw [List.append_nil] at hcomp
  exact .of_eq fun s hs => ⟨_, by rw [hs.1], hcomp⟩

theorem visits_thirdLevel (h : Records inv out exta indexTablea) (hh : idisk.atHeader = false)
    (hf : idisk.atFirstLevel = false) : Visits disk inv out (idisk.foreachThirdLevel exta indexTablea none)
      ((List.range inodeHeaderExtents).map idisk.headerExtents ++
        tableExtents disk inodeDiskExtents idisk.firstLevelTable ++ secondVisited disk idisk ++
        thirdVisited disk idisk) := by
  have hsecond := visits_secondLevel disk idisk h hh hf
  unfold thirdVisited
  by_cases hn : idisk.nextSecondLevel = 0
  · rw [if_pos hn, List.append_nil]
    refine .of_eq fun s hs => ⟨_, ?_, hsecond⟩
    unfold foreachThirdLevel
    simp only [hn, bne_self_eq_false, Bool.false_eq_true, if_false]
  · rw [if_neg hn]
    have hblocks : Visits disk inv out (forWhile (goOn none) (fun i s => callIndexWhile indexTablea none
        (disk idisk.thirdLevelTable i) (forWhile (goOn none) (fun j =>
          foreachTable exta indexTablea none (s.disk (disk idisk.thirdLevelTable i) j)) inodeDiskIndices 0 s))
        (idisk.nextSecondLevel - 1).toNat 0)
        ((indexBlock disk (idisk.nextSecondLevel - 1).toNat idisk.thirdLevelTable).flatMap fun b =>
          (indexBlock disk inodeDiskIndices b).flatMap (tableExtents disk inodeDiskExtents)) := by
      rw [indexBlock, List.flatMap_map]
      exact emits_forRange goOn_none _ fun i _ => visits_block disk h _
    let block := disk idisk.thirdLevelTable (idisk.nextSecondLevel - 1).toNat
    let last := disk block (idisk.nextFirstLevel - 1).toNat
    have hfull := visits_tables disk h (idisk.nextFirstLevel - 1).toNat block
    have hlast := (visits_indexWhile disk h last).comp (visits_extents disk h idisk.nextExtent.toNat last)
    rw [List.nil_append] at hlast
    refine .of_eq fun s hs => ⟨_, ?_, hsecond.comp ((hblocks.comp hfull).comp hlast)⟩
    have hd := (hsecond s hs).1
    have hd' := (hblocks _ hd).1
    have hd'' := (hfull _ hd').1.1
    have hne : (idisk.nextSecondLevel != 0) = true := bne_iff_ne.mpr hn
    unfold foreachThirdLevel
    simp only [hne, hd.1, hd'.1, if_true]
    rw [hd'']

/-- The extents that `inode_disk_foreach` calls its action on. -/
def visited (disk : Disk) (idisk : InodeDisk) : List InodeExtent :=
  let header := (List.range inodeHeaderExtents).map idisk.headerExtents
  if idisk.atHeader then (List.range idisk.nextExtent.toNat).map idisk.headerExtents
  else if idisk.atFirstLevel then header ++ tableExtents disk idisk.nextExtent.toNat idisk.firstLevelTable
  else
    header ++ tableExtents disk inodeDiskExtents idisk.firstLevelTable ++ secondVisited disk idisk ++
      if idisk.atSecondLevel then [] else thirdVisited disk idisk

theorem visits_foreach (h : Records inv out exta indexTablea) :
    Visits disk inv out (idisk.foreach exta indexTablea none) (visited disk idisk) := by
  have hsome := at_some_level idisk
  unfold visited
  cases hh : idisk.atHeader with
  | true =>
      have hheader := visits_header disk idisk h
      rw [if_pos hh] at hheader
      refine .of_eq fun s _ => ⟨_, ?_, hheader⟩
      rw [foreach, if_pos hh]
  | false =>
      cases hf : idisk.atFirstLevel with
      | true =>
          have hfirst := visits_firstLevel disk idisk h hh
          rw [if_pos hf] at hfirst
          refine .of_eq fun s _ => ⟨_, ?_, hfirst⟩
          rw [foreach, if_neg (Bool.eq_false_iff.mp hh), if_pos hf]
      | false =>
          cases hs : idisk.atSecondLevel with
          | true =>
              have hsecond := visits_secondLevel disk idisk h hh hf
              rw [← List.append_nil (_ ++ secondVisited disk idisk)] at hsecond
              refine .of_eq fun s _ => ⟨_, ?_, hsecond⟩
              rw [foreach, if_neg (Bool.eq_false_iff.mp hh), if_neg (Bool.eq_false_iff.mp hf), if_pos hs]
          | false =>
              rw [hh, hf, hs, Bool.false_or, Bool.false_or, Bool.false_or] at hsome
              refine .of_eq fun s _ => ⟨_, ?_, visits_thirdLevel disk idisk h hh hf⟩
              rw [foreach, if_neg (Bool.eq_false_iff.mp hh), if_neg (Bool.eq_false_iff.mp hf),
                if_neg (Bool.eq_false_iff.mp hs), if_pos hsome]

end

/-! ### When that is the file -/

section
variable {disk : Disk} {idisk : InodeDisk} {n : ℕ} {t : BitVec 32} {ts : List (BitVec 32)}

@[simp] theorem length_tableExtents : (tableExtents disk n t).length = n := by
  simp [tableExtents]

@[simp] theorem length_indexBlock : (indexBlock disk n t).length = n := by
  simp [indexBlock]

theorem indexBlock_succ : indexBlock disk (n + 1) t = indexBlock disk n t ++ [disk t n] := by
  rw [indexBlock, List.range_succ, List.map_append]
  rfl

theorem length_flatMap_of {α β : Type} {f : α → List β} (hf : ∀ x, (f x).length = n) (xs : List α) :
    (xs.flatMap f).length = xs.length * n := by
  induction xs with
  | nil => simp
  | cons x xs ih => rw [List.flatMap_cons, List.length_append, ih, hf, List.length_cons, Nat.succ_mul, Nat.add_comm]

theorem length_tables : (ts.flatMap (tableExtents disk n)).length = ts.length * n :=
  length_flatMap_of (fun _ => length_tableExtents) ts

theorem filled_concat : filled disk n (ts ++ [t]) =
    ts.flatMap (tableExtents disk inodeDiskExtents) ++ tableExtents disk n t := by
  rw [filled, List.dropLast_concat, List.getLast?_concat]
  rfl

theorem filled_full : filled disk inodeDiskExtents ts = ts.flatMap (tableExtents disk inodeDiskExtents) := by
  rcases List.eq_nil_or_concat ts with rfl | ⟨ts, t, rfl⟩
  · rfl
  · rw [List.concat_eq_append, filled_concat, List.flatMap_append, List.flatMap_singleton]

theorem length_filled (h : ts ≠ []) : (filled disk n ts).length = (ts.length - 1) * inodeDiskExtents + n := by
  obtain ⟨ts, t, rfl⟩ := (List.eq_nil_or_concat ts).resolve_left h
  rw [List.concat_eq_append, filled_concat, List.length_append, length_tables, length_tableExtents, List.length_append]
  rfl

theorem toNat_pred {x : BitVec 32} (h : x ≠ 0) : (x - 1).toNat = x.toNat - 1 := by
  have hpos : x.toNat ≠ 0 := fun h' => h (BitVec.eq_of_toNat_eq h')
  rw [BitVec.toNat_sub_of_le (by rw [BitVec.le_def]; exact Nat.one_le_iff_ne_zero.mpr hpos)]
  rfl

/-- A second level that is full but for its last table, and one that ends with the table that sector 127 is. -/
theorem second_eq_iff (hn : idisk.nextFirstLevel ≠ 0) (hfirst : idisk.nextFirstLevel.toNat ≤ inodeDiskIndices)
    (hne : idisk.nextExtent.toNat ≤ inodeDiskExtents) {k : ℕ} (hk : k = idisk.nextExtent.toNat ∨ k = inodeDiskExtents) :
    (indexBlock disk (idisk.nextFirstLevel - 1).toNat t).flatMap (tableExtents disk inodeDiskExtents) ++
        tableExtents disk idisk.nextExtent.toNat (idisk.nextFirstLevel - 1) =
      (indexBlock disk 127 t).flatMap (tableExtents disk inodeDiskExtents) ++ tableExtents disk k (disk t 127) ↔
      idisk.nextFirstLevel = 128 ∧ idisk.nextExtent.toNat = k ∧
        tableExtents disk idisk.nextExtent.toNat 127 = tableExtents disk idisk.nextExtent.toNat (disk t 127) := by
  have hpos : idisk.nextFirstLevel.toNat ≠ 0 := fun h => hn (BitVec.eq_of_toNat_eq h)
  have hsub := toNat_pred hn
  unfold inodeDiskIndices inodeDiskExtents at *
  constructor
  · intro heq
    have hlen := congrArg List.length heq
    rw [List.length_append, List.length_append, length_tables, length_tables, length_indexBlock, length_indexBlock,
      length_tableExtents, length_tableExtents, hsub] at hlen
    have hfull : idisk.nextFirstLevel.toNat = 128 := by omega
    have hlast : idisk.nextExtent.toNat = k := by omega
    have hval : idisk.nextFirstLevel = 128 := BitVec.eq_of_toNat_eq hfull
    refine ⟨hval, hlast, ?_⟩
    rw [hval, ← hlast] at heq
    exact List.append_cancel_left heq
  · rintro ⟨hval, hlast, htable⟩
    rw [hval, ← hlast, ← htable]
    rfl

end

/-- The inodes whose second level, if they have one, the code gets right: there it takes the level for full, and below
the third one it takes sector 127 for the last table of the second. -/
def Regular (disk : Disk) (idisk : InodeDisk) : Prop :=
  idisk.atHeader ∨ idisk.atFirstLevel ∨
    (idisk.atSecondLevel ∧ idisk.nextFirstLevel = 128 ∧ idisk.nextExtent = 64) ∨
    (idisk.atThirdLevel ∧ idisk.nextFirstLevel = 128 ∧ (idisk.nextSecondLevel ≠ 0 → idisk.nextExtent = 64) ∧
      tableExtents disk idisk.nextExtent.toNat 127 =
        tableExtents disk idisk.nextExtent.toNat (disk idisk.secondLevelTable 127))

section
variable {disk : Disk} {idisk : InodeDisk}

theorem visited_second_iff (hf : Formed idisk) (hh : idisk.atHeader = false) (hl : idisk.atFirstLevel = false)
    (hs : idisk.atSecondLevel = true) : visited disk idisk = extents disk idisk ↔
      idisk.nextFirstLevel = 128 ∧ idisk.nextExtent = 64 := by
  have hne := hf.table (Bool.eq_false_iff.mp hh)
  have hn := hf.firstLevel (.inl hs)
  unfold visited extents tables secondVisited
  simp only [hh, hl, hs, Bool.false_eq_true, if_false, if_true]
  rw [List.append_nil, List.append_assoc, List.append_cancel_left_eq]
  constructor
  · intro heq
    have hlen := congrArg List.length heq
    rw [length_filled (List.cons_ne_nil _ _), List.length_append, length_tables, length_tableExtents, List.length_cons,
      length_indexBlock, length_indexBlock] at hlen
    unfold inodeDiskIndices inodeDiskExtents at *
    constructor
    · exact BitVec.eq_of_toNat_eq (show idisk.nextFirstLevel.toNat = 128 by omega)
    · exact BitVec.eq_of_toNat_eq (show idisk.nextExtent.toNat = 64 by omega)
  · rintro ⟨hfirst, hext⟩
    rw [hfirst, hext]
    exact (List.flatMap_cons ..).symm.trans filled_full.symm

/-- The tables of an inode at the third level, when that is in use. -/
theorem filled_third {ne nf : ℕ} (hnf : nf ≠ 0) (t b : BitVec 32) (ts bs : List (BitVec 32)) :
    filled disk ne (t :: ts ++ bs.flatMap (indexBlock disk inodeDiskIndices) ++ indexBlock disk nf b) =
      tableExtents disk inodeDiskExtents t ++ ts.flatMap (tableExtents disk inodeDiskExtents) ++
        (bs.flatMap (fun b => (indexBlock disk inodeDiskIndices b).flatMap (tableExtents disk inodeDiskExtents)) ++
          (indexBlock disk (nf - 1) b).flatMap (tableExtents disk inodeDiskExtents) ++
          tableExtents disk ne (disk b (nf - 1))) := by
  obtain ⟨nf, rfl⟩ := Nat.exists_eq_succ_of_ne_zero hnf
  rw [Nat.succ_sub_one, indexBlock_succ, ← List.append_assoc, filled_concat, List.flatMap_append, List.flatMap_append,
    List.flatMap_cons, List.flatMap_assoc]
  simp only [List.append_assoc]

/-- The last table of a full second level. -/
theorem indexBlock_full (t : BitVec 32) : indexBlock disk inodeDiskIndices t = indexBlock disk 127 t ++ [disk t 127] :=
  indexBlock_succ

/-- With no table of the third level, the last table is the last one of the second level. -/
theorem secondVisited_iff (hf : Formed idisk) (hh : idisk.atHeader = false) (hs : idisk.atSecondLevel = false)
    (ht : idisk.atThirdLevel = true) :
    tableExtents disk inodeDiskExtents idisk.firstLevelTable ++ secondVisited disk idisk =
      filled disk idisk.nextExtent.toNat
        (idisk.firstLevelTable :: indexBlock disk inodeDiskIndices idisk.secondLevelTable) ↔
      idisk.nextFirstLevel = 128 ∧ tableExtents disk idisk.nextExtent.toNat 127 =
        tableExtents disk idisk.nextExtent.toNat (disk idisk.secondLevelTable 127) := by
  have hne := hf.table (Bool.eq_false_iff.mp hh)
  have hn := hf.firstLevel (.inr ht)
  have hlast : filled disk idisk.nextExtent.toNat
      (idisk.firstLevelTable :: indexBlock disk inodeDiskIndices idisk.secondLevelTable) =
        tableExtents disk inodeDiskExtents idisk.firstLevelTable ++
          ((indexBlock disk 127 idisk.secondLevelTable).flatMap (tableExtents disk inodeDiskExtents) ++
            tableExtents disk idisk.nextExtent.toNat (disk idisk.secondLevelTable 127)) := by
    rw [indexBlock_full, ← List.cons_append, filled_concat, List.flatMap_cons, List.append_assoc]
  unfold secondVisited
  rw [if_neg (Bool.eq_false_iff.mp hs), hlast, List.append_cancel_left_eq]
  by_cases hn₀ : idisk.nextFirstLevel = 0
  · rw [if_pos hn₀]
    refine iff_of_false (fun heq => ?_) fun h => absurd (hn₀.symm.trans h.1) (by decide)
    have hlen := congrArg List.length heq
    rw [List.length_append, length_tables, length_indexBlock, List.length_nil] at hlen
    unfold inodeDiskExtents at hlen
    omega
  · rw [if_neg hn₀, second_eq_iff hn₀ hn hne (.inl rfl)]
    simp

/-- With tables of the third level, all tables of the second one are full. -/
theorem thirdVisited_iff (hf : Formed idisk) (hh : idisk.atHeader = false) (hs : idisk.atSecondLevel = false)
    (ht : idisk.atThirdLevel = true) (hm₀ : idisk.nextSecondLevel ≠ 0) :
    tableExtents disk inodeDiskExtents idisk.firstLevelTable ++ (secondVisited disk idisk ++ thirdVisited disk idisk) =
      filled disk idisk.nextExtent.toNat
        (idisk.firstLevelTable :: indexBlock disk inodeDiskIndices idisk.secondLevelTable ++
            List.flatMap (indexBlock disk inodeDiskIndices)
              (indexBlock disk idisk.nextSecondLevel.toNat idisk.thirdLevelTable).dropLast ++
          (indexBlock disk idisk.nextSecondLevel.toNat idisk.thirdLevelTable).getLast?.elim []
            (indexBlock disk idisk.nextFirstLevel.toNat)) ↔
      idisk.nextFirstLevel = 128 ∧ idisk.nextExtent = 64 ∧ tableExtents disk idisk.nextExtent.toNat 127 =
        tableExtents disk idisk.nextExtent.toNat (disk idisk.secondLevelTable 127) := by
  have hne := hf.table (Bool.eq_false_iff.mp hh)
  have hn := hf.firstLevel (.inr ht)
  have hm := hf.secondLevel ht
  have hm' := toNat_pred hm₀
  have hpos : idisk.nextSecondLevel.toNat ≠ 0 := fun h => hm₀ (BitVec.eq_of_toNat_eq h)
  obtain ⟨m, hm''⟩ := Nat.exists_eq_succ_of_ne_zero hpos
  have hblocks : indexBlock disk idisk.nextSecondLevel.toNat idisk.thirdLevelTable =
      indexBlock disk m idisk.thirdLevelTable ++ [disk idisk.thirdLevelTable m] := by
    rw [hm'']
    exact indexBlock_succ
  unfold secondVisited thirdVisited
  rw [if_neg (Bool.eq_false_iff.mp hs), if_neg hm₀, hblocks, List.dropLast_concat, List.getLast?_concat, hm', hm'',
    Nat.succ_sub_one]
  simp only [Option.elim_some]
  by_cases hn₀ : idisk.nextFirstLevel = 0
  · -- `next_first_level - 1` is the greatest number
    refine iff_of_false (fun heq => ?_) fun h => absurd (hn₀.symm.trans h.1) (by decide)
    have hlen := congrArg List.length heq
    have hwrap : (idisk.nextFirstLevel - 1).toNat = 2 ^ 32 - 1 := by
      rw [hn₀]
      rfl
    rw [if_pos hn₀, List.nil_append, hwrap, length_filled (by simp), List.length_append, List.length_append,
      List.length_append, List.length_append, List.length_append, List.length_cons, length_tables, length_tableExtents,
      length_tableExtents, length_indexBlock, length_indexBlock, length_indexBlock,
      length_flatMap_of (fun _ => length_indexBlock),
      length_flatMap_of (fun b => length_tables.trans (congrArg (· * inodeDiskExtents) length_indexBlock)),
      length_indexBlock, hn₀] at hlen
    have hzero : BitVec.toNat (0 : BitVec 32) = 0 := rfl
    unfold inodeDiskExtents inodeDiskIndices at hlen
    omega
  · have hnf : idisk.nextFirstLevel.toNat ≠ 0 := fun h => hn₀ (BitVec.eq_of_toNat_eq h)
    have hext : idisk.nextExtent = 64 ↔ idisk.nextExtent.toNat = inodeDiskExtents :=
      ⟨fun h => h ▸ rfl, fun h => BitVec.eq_of_toNat_eq h⟩
    rw [if_neg hn₀, filled_third hnf, ← toNat_pred hn₀, indexBlock_full, List.flatMap_append, List.flatMap_singleton,
      List.append_assoc (tableExtents disk inodeDiskExtents _), List.append_cancel_left_eq,
      List.append_cancel_right_eq, second_eq_iff hn₀ hn hne (.inr rfl), hext]

theorem visited_third_iff (hf : Formed idisk) (hh : idisk.atHeader = false) (hl : idisk.atFirstLevel = false)
    (hs : idisk.atSecondLevel = false) (ht : idisk.atThirdLevel = true) : visited disk idisk = extents disk idisk ↔
      idisk.nextFirstLevel = 128 ∧ (idisk.nextSecondLevel ≠ 0 → idisk.nextExtent = 64) ∧
        tableExtents disk idisk.nextExtent.toNat 127 =
          tableExtents disk idisk.nextExtent.toNat (disk idisk.secondLevelTable 127) := by
  unfold visited extents tables
  simp only [hh, hl, hs, Bool.false_eq_true, if_false]
  rw [List.append_assoc, List.append_assoc, List.append_cancel_left_eq]
  by_cases hm₀ : idisk.nextSecondLevel = 0
  · have hblocks : indexBlock disk idisk.nextSecondLevel.toNat idisk.thirdLevelTable = [] := by
      rw [hm₀]
      rfl
    have hthird : thirdVisited disk idisk = [] := if_pos hm₀
    rw [hthird, hblocks]
    simp only [List.dropLast_nil, List.flatMap_nil, List.getLast?_nil, Option.elim_none, List.append_nil]
    rw [secondVisited_iff hf hh hs ht]
    simp [hm₀]
  · rw [thirdVisited_iff hf hh hs ht hm₀, forall_prop_of_true hm₀]

theorem visited_iff (hf : Formed idisk) : visited disk idisk = extents disk idisk ↔ Regular disk idisk := by
  have hsome := at_some_level idisk
  unfold Regular
  cases hh : idisk.atHeader with
  | true =>
      refine iff_of_true ?_ (.inl rfl)
      unfold visited extents
      rw [if_pos hh, if_pos hh]
  | false =>
      cases hl : idisk.atFirstLevel with
      | true =>
          refine iff_of_true ?_ (.inr (.inl rfl))
          unfold visited extents tables
          simp only [hh, hl, Bool.false_eq_true, if_false, if_true]
          rfl
      | false =>
          cases hs : idisk.atSecondLevel with
          | true =>
              have ht : idisk.atThirdLevel = false := by
                unfold atSecondLevel at hs
                unfold atThirdLevel
                simpa using (Bool.and_eq_true_iff.mp hs).2
              rw [visited_second_iff hf hh hl hs, ht]
              simp
          | false =>
              rw [hh, hl, hs, Bool.false_or, Bool.false_or, Bool.false_or] at hsome
              rw [visited_third_iff hf hh hl hs hsome, hsome]
              simp

end

/-- The extent action, with a list of the extents it has been called on. -/
def traced {σ : Type} (exta : InodeExtent → σ → σ) (e : InodeExtent) (a : σ × List InodeExtent) : σ × List InodeExtent :=
  (exta e a.1, a.2 ++ [e])

/-- The extents that `inode_disk_foreach` calls the action on, with no stop condition. -/
def calls {σ : Type} (exta : InodeExtent → σ → σ) (indexTablea : Option (BitVec 32 → σ → σ)) (disk : Disk)
    (idisk : InodeDisk) (aux : σ) : List InodeExtent :=
  (idisk.foreach (traced exta) (indexTablea.map fun f t a => (f t a.1, a.2)) none ⟨disk, (aux, [])⟩).aux.2

theorem calls_eq {σ : Type} (exta : InodeExtent → σ → σ) (indexTablea : Option (BitVec 32 → σ → σ)) (disk : Disk)
    (idisk : InodeDisk) (aux : σ) : calls exta indexTablea disk idisk aux = visited disk idisk := by
  have hrec : Records (fun _ => True) Prod.snd (traced exta) (indexTablea.map fun f t a => (f t a.1, a.2)) := by
    refine ⟨fun _ _ _ => ⟨trivial, rfl⟩, fun f hf t a _ => ?_⟩
    obtain ⟨g, -, rfl⟩ := Option.map_eq_some_iff.mp hf
    exact ⟨trivial, rfl⟩
  exact (visits_foreach disk idisk hrec ⟨disk, (aux, [])⟩ ⟨rfl, trivial⟩).2.trans (List.nil_append _)

end InodeDisk

open InodeDisk

/-- **Going through an inode.**  For every inode whose counters are in range, and whatever the actions do,
`inode_disk_foreach` without a stop condition calls the extent action on the extents of the inode, on each once and in
the order of the file, if and only if the inode is regular. -/
theorem foreach_iff {σ : Type} {idisk : InodeDisk} (h : idisk.Formed) (exta : InodeExtent → σ → σ)
    (indexTablea : Option (BitVec 32 → σ → σ)) (disk : Disk) (aux : σ) :
    calls exta indexTablea disk idisk aux = idisk.extents disk ↔ idisk.Regular disk := by
  rw [calls_eq, visited_iff h]

/-- An inode at the second level, with `tables` tables there of which the last one has `last` extents.  Its index block is
sector 2. -/
def secondLevelInode (tables last : BitVec 32) : InodeDisk where
  nextExtent := last
  nextFirstLevel := tables
  nextSecondLevel := inodeDiskNpos
  firstLevelTable := 1
  secondLevelTable := 2
  thirdLevelTable := inodeDiskNpos
  headerExtents i := ⟨BitVec.ofNat 32 (100 + i), 1⟩

theorem secondLevelInode_formed {tables last : BitVec 32} (ht : tables.toNat ≤ inodeDiskIndices)
    (hl : last.toNat ≤ inodeDiskExtents) : (secondLevelInode tables last).Formed where
  header h := absurd h (by simp [atHeader, secondLevelInode, inodeDiskNpos])
  table _ := hl
  firstLevel _ := ht
  secondLevel h := absurd h (by simp [atThirdLevel, secondLevelInode])

theorem foreach_iff_full : calls (fun _ n => n + 1) none (fun s i => s + BitVec.ofNat 32 i) (secondLevelInode 128 64) 0 =
    (secondLevelInode 128 64).extents fun s i => s + BitVec.ofNat 32 i :=
  (foreach_iff (secondLevelInode_formed (by decide) (by decide)) _ _ _ _).mpr (.inr (.inr (.inl ⟨rfl, rfl, rfl⟩)))

/-- With one extent in one table of the second level, the action is called on the extents of 128 tables. -/
theorem foreach_beyond_end : (secondLevelInode 1 1).Formed ∧
    calls (fun _ n => n + 1) none (fun s i => s + BitVec.ofNat 32 i) (secondLevelInode 1 1) 0 ≠
      (secondLevelInode 1 1).extents fun s i => s + BitVec.ofNat 32 i := by
  have hf : (secondLevelInode 1 1).Formed := secondLevelInode_formed (by decide) (by decide)
  refine ⟨hf, fun h => ?_⟩
  rw [calls_eq, visited_second_iff hf rfl rfl rfl] at h
  exact absurd h.1 (by decide)

end Dunkos
