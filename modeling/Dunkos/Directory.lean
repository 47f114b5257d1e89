import Dunkos.Inode
import Mathlib.Data.List.Find
import Mathlib.Data.List.GetD

/-! # Directories (`dir_get_mapping`, `dir_add_file` and `dir_remove` of `filesys.c`)

A directory is the bytes that `file_read_at` and `file_write_at` read and write; its entries are the twelve
slots of 40 bytes of one sector.  `strncmp` returns the number of characters left when a string ends, so only names
of 32 characters match (`strncmp_eq_zero_iff`), `dir_add_file` writes over the entry it finds, and there is a
thirteenth slot at the end of the sector.  `directory_right_iff` says which directories and sequences of calls that
leaves right: those where nothing is to be done. -/

namespace Dunkos

open Function

abbrev Byte := BitVec 8

/-! ### `strncmp` -/

/-- The loop; `cmp` and what is left of `count` at its end. -/
def strncmpLoop (left right : ℕ → Byte) (cmp : ℤ) (i : ℕ) : ℕ → ℤ × ℕ
  | 0 => (cmp, 0)
  | count + 1 =>
    if cmp = 0 ∧ left i ≠ 0 ∧ right i ≠ 0 then
      strncmpLoop left right ((left i).toInt - (right i).toInt) (i + 1) count
    else (cmp, count + 1)

def strncmp (left right : ℕ → Byte) (count : ℕ) : ℤ :=
  let (cmp, count) := strncmpLoop left right 0 0 count
  if cmp ≠ 0 then cmp else (BitVec.ofNat 32 count).toInt

theorem strncmpLoop_of_ne (left right : ℕ → Byte) {cmp : ℤ} (h : cmp ≠ 0) (i count : ℕ) :
    (strncmpLoop left right cmp i count).1 = cmp := by
  cases count with
  | zero => rfl
  | succ count => rw [strncmpLoop, if_neg fun hc => h hc.1]

/-- The loop comes to the end of `count` without a difference. -/
theorem strncmpLoop_iff (left right : ℕ → Byte) (i count : ℕ) :
    strncmpLoop left right 0 i count = (0, 0) ↔ ∀ j < count, left (i + j) = right (i + j) ∧ left (i + j) ≠ 0 := by
  induction count generalizing i with
  | zero => simp [strncmpLoop]
  | succ count ih =>
      rw [strncmpLoop]
      constructor
      · intro h j hj
        split_ifs at h with hc
        · have heq : left i = right i := by
            by_contra hne
            have hsub : (left i).toInt - (right i).toInt ≠ 0 := fun h₀ => hne (BitVec.eq_of_toInt_eq (by omega))
            have hcmp := strncmpLoop_of_ne left right hsub (i + 1) count
            rw [h] at hcmp
            exact hsub hcmp.symm
          rw [heq, Int.sub_self] at h
          cases j with
          | zero => exact ⟨heq, hc.2.1⟩
          | succ j =>
              have hj' := (ih (i + 1)).mp h j (by omega)
              rwa [Nat.add_assoc, Nat.add_comm 1 j] at hj'
        · simp at h
      · intro h
        obtain ⟨heq, hne⟩ := h 0 (Nat.succ_pos _)
        rw [Nat.add_zero] at heq hne
        rw [if_pos ⟨rfl, hne, heq ▸ hne⟩, heq, Int.sub_self]
        refine (ih (i + 1)).mpr fun j hj => ?_
        have hj' := h (j + 1) (by omega)
        rwa [← Nat.add_assoc, Nat.add_right_comm] at hj'

theorem strncmpLoop_le (left right : ℕ → Byte) (cmp : ℤ) (i count : ℕ) :
    (strncmpLoop left right cmp i count).2 ≤ count := by
  induction count generalizing cmp i with
  | zero => exact Nat.le_refl 0
  | succ count ih =>
      rw [strncmpLoop]
      split_ifs
      · exact Nat.le_succ_of_le (ih _ _)
      · exact Nat.le_refl _

/-- Strings that end before `count` characters never compare equal. -/
theorem strncmp_eq_zero_iff {left right : ℕ → Byte} {count : ℕ} (h : count < 2 ^ 31) :
    strncmp left right count = 0 ↔ ∀ j < count, left j = right j ∧ left j ≠ 0 := by
  have hiff := strncmpLoop_iff left right 0 count
  have hle := strncmpLoop_le left right 0 0 count
  simp only [Nat.zero_add] at hiff
  rw [← hiff]
  unfold strncmp
  generalize strncmpLoop left right 0 0 count = r at hle ⊢
  obtain ⟨cmp, rest⟩ := r
  dsimp only at hle ⊢
  rw [Prod.mk.injEq]
  split_ifs with hc
  · exact iff_of_false hc fun h₀ => hc h₀.1
  · rw [not_not] at hc
    rw [BitVec.toInt_ofNat', Int.bmod_eq_of_le_mul_two (by omega) (by omega)]
    simp [hc]

/-! ### The code -/

/-- `NAME_MAX`. -/
def nameMax : ℕ := 32

/-- `NAME_LENGTH`. -/
def nameLength : ℕ := nameMax + 1

/-- `BLOCK_SECTOR_SIZE`. -/
def blockSectorSize : ℕ := 512

/-- `struct dir_entry`. -/
structure DirEntry where
  name : ℕ → Byte
  sector : BitVec 32

/-- `sizeof(struct dir_entry)`: the name, three bytes of padding, the sector. -/
def direntSize : ℕ := 40

/-- `INODE_DISK_NPOS`, as an `off_t`. -/
def dirNpos : BitVec 64 := inodeDiskNpos.setWidth 64

/-- What `file_read_at(dir, &ent, ofs, sizeof ent)` reads. -/
def readEntry (data : ℕ → Byte) (ofs : ℕ) : DirEntry where
  name i := data (ofs + i)
  sector := data (ofs + 39) ++ data (ofs + 38) ++ data (ofs + 37) ++ data (ofs + 36)

/-- `file_write_at(dir, src, at, count)`. -/
def writeBytes (data : ℕ → Byte) (src : ℕ → Byte) (pos count : ℕ) : ℕ → Byte := fun j =>
  if pos ≤ j ∧ j < pos + count then src (j - pos) else data j

/-- What `file_write_at` returns: the result of `block_write`, and `block_read` has the same. -/
def blockResult (count : ℕ) : ℕ := blockSectorSize - count % blockSectorSize

/-- The bytes of an entry. -/
def DirEntry.bytes (ent : DirEntry) (i : ℕ) : Byte :=
  if i < nameLength then ent.name i
  else if i < 36 then 0
  else ent.sector.extractLsb' (8 * (i - 36)) 8

/-- The loop of `dir_get_mapping`, to the offset of the entry it stops at. -/
def mappingLoop (data name : ℕ → Byte) : ℕ → ℕ → Option ℕ
  | 0, _ => none
  | fuel + 1, ofs =>
    if ofs < blockSectorSize then
      if strncmp (readEntry data ofs).name name nameMax = 0 then some ofs
      else mappingLoop data name fuel (ofs + direntSize)
    else none

/-- `dir_get_mapping`: what it returns, and `*entryofs` where it writes that. -/
def dirGetMapping (data name : ℕ → Byte) : BitVec 64 × Option ℕ :=
  match mappingLoop data name blockSectorSize 0 with
  | some ofs => ((readEntry data ofs).sector.setWidth 64, some ofs)
  | none => (dirNpos, none)

/-- `dir_remove`, for the bytes of the directory.  It ends without a `return`, so it returns no value. -/
def dirRemove (data name : ℕ → Byte) : (ℕ → Byte) × Option Bool :=
  match dirGetMapping data name with
  | (sector, some entryofs) => (if sector ≠ dirNpos then writeBytes data (fun _ => 0) entryofs direntSize else data, none)
  | (_, none) => (data, none)

/-- `dir_add_file`.  In `.name = name` the pointer is converted to the first `char` of the name, so that this is
`ptr`, the low byte of the address of `name`. -/
def dirAddFile (data : ℕ → Byte) (sector : BitVec 64) (name : ℕ → Byte) (ptr : Byte) : (ℕ → Byte) × Option Bool :=
  match dirGetMapping data name with
  | (mapped, some emptyofs) =>
    if mapped ≠ dirNpos then
      let newEnt : DirEntry := ⟨fun i => if i = 0 then ptr else 0, sector.setWidth 32⟩
      (writeBytes data newEnt.bytes emptyofs direntSize, some (blockResult direntSize == direntSize))
    else (data, some false)
  | (_, none) => (data, some false)

/-! ### Directories as finite maps -/

/-- A name of 1 to 32 characters. -/
structure FileName where
  chars : List Byte
  ne_nil : chars ≠ []
  length_le : chars.length ≤ nameMax
  nonzero : 0 ∉ chars
deriving DecidableEq

/-- The string, with its terminator. -/
def FileName.bytes (n : FileName) (i : ℕ) : Byte := n.chars.getD i 0

/-- The slots of one sector. -/
def dirSlots : ℕ := 12

/-- The slot holds the name, with its terminator. -/
def SlotHolds (data : ℕ → Byte) (k : ℕ) (n : FileName) : Prop :=
  ∀ i ≤ n.chars.length, (readEntry data (direntSize * k)).name i = n.bytes i

instance (data : ℕ → Byte) (k : ℕ) (n : FileName) : Decidable (SlotHolds data k n) :=
  inferInstanceAs (Decidable (∀ i ≤ n.chars.length, _ = _))

def SlotFree (data : ℕ → Byte) (k : ℕ) : Prop := (readEntry data (direntSize * k)).name 0 = 0

instance (data : ℕ → Byte) (k : ℕ) : Decidable (SlotFree data k) := inferInstanceAs (Decidable (_ = _))

/-- Every slot is free or holds a name, and no name is in two slots. -/
structure DirFormed (data : ℕ → Byte) : Prop where
  slot : ∀ k < dirSlots, SlotFree data k ∨ ∃ n, SlotHolds data k n
  unique : ∀ k < dirSlots, ∀ k' < dirSlots, ∀ n, SlotHolds data k n → SlotHolds data k' n → k = k'

def slotSector (data : ℕ → Byte) (k : ℕ) : BitVec 64 := (readEntry data (direntSize * k)).sector.setWidth 64

/-- The map that a directory stands for. -/
def dirEntries (data : ℕ → Byte) (n : FileName) : Option (BitVec 64) :=
  ((List.range dirSlots).find? fun k => SlotHolds data k n).map (slotSector data)

/-- A free slot exists. -/
def HasRoom (data : ℕ → Byte) : Prop := ∃ k < dirSlots, SlotFree data k

instance (data : ℕ → Byte) : Decidable (HasRoom data) := inferInstanceAs (Decidable (∃ k < dirSlots, _))

inductive DirOp where
  | add (sector : BitVec 64) (name : FileName) (ptr : Byte)
  | remove (name : FileName)

def DirOp.run (data : ℕ → Byte) : DirOp → (ℕ → Byte) × Option Bool
  | add sector n ptr => dirAddFile data sector n.bytes ptr
  | remove n => dirRemove data n.bytes

/-- What is in the directory after a call that returned `r`: the names added and not removed since. -/
def DirOp.track (m : FileName → Option (BitVec 64)) (r : Option Bool) : DirOp → FileName → Option (BitVec 64)
  | add sector n _ => if r = some true then update m n (some sector) else m
  | remove n => update m n none

/-- Every name is found where it was added last. -/
def MappingsRight (data : ℕ → Byte) (m : FileName → Option (BitVec 64)) : Prop :=
  ∀ n : FileName, (dirGetMapping data n.bytes).1 = (m n).getD dirNpos

/-- What the result `t` of a call is to be, when `m` was in the directory before. -/
def DirOp.Right (data : ℕ → Byte) (m : FileName → Option (BitVec 64)) (t : (ℕ → Byte) × Option Bool) : DirOp → Prop
  | add _ n _ =>
    ((m n).isSome → t = (data, some false)) ∧ (m n = none → HasRoom data → t.2 = some true) ∧
      ∀ n' ≠ n, (m n').isSome → dirEntries t.1 n' = dirEntries data n'
  | remove n => t.2 = some (m n).isSome

/-- The calls of a sequence, and the lookups before and after each, are right. -/
def DirRight (data : ℕ → Byte) (m : FileName → Option (BitVec 64)) : List DirOp → Prop
  | [] => MappingsRight data m
  | op :: ops =>
    MappingsRight data m ∧ op.Right data m (op.run data) ∧ DirRight (op.run data).1 (op.track m (op.run data).2) ops

/-! ### Lookups -/

section
variable {data : ℕ → Byte} {n : FileName} {k ofs : ℕ}

theorem FileName.bytes_ne (n : FileName) {i : ℕ} (hi : i < n.chars.length) : n.bytes i ≠ 0 := by
  intro h
  rw [FileName.bytes, List.getD_eq_getElem _ _ hi] at h
  exact n.nonzero (h ▸ List.getElem_mem hi)

theorem FileName.bytes_length (n : FileName) : n.bytes n.chars.length = 0 := List.getD_eq_default _ _ (Nat.le_refl _)

/-- What `strncmp` compares equal with a name. -/
theorem strncmp_name_iff : strncmp (readEntry data ofs).name n.bytes nameMax = 0 ↔
    n.chars.length = nameMax ∧ ∀ i < nameMax, data (ofs + i) = n.bytes i := by
  rw [strncmp_eq_zero_iff (by decide)]
  constructor
  · intro h
    refine ⟨?_, fun i hi => (h i hi).1⟩
    by_contra hne
    have hlt : n.chars.length < nameMax := Nat.lt_of_le_of_ne n.length_le hne
    obtain ⟨heq, hne⟩ := h _ hlt
    exact hne (heq.trans n.bytes_length)
  · rintro ⟨hlen, h⟩ i hi
    exact ⟨h i hi, fun h₀ => n.bytes_ne (hlen ▸ hi) ((h i hi).symm.trans h₀)⟩

/-- The loop looks at the slots in order, and at the one that begins at the end of the sector. -/
theorem mappingLoop_eq (data name : ℕ → Byte) : mappingLoop data name blockSectorSize 0 =
    ((List.range (dirSlots + 1)).find? fun k =>
      strncmp (readEntry data (direntSize * k)).name name nameMax = 0).map (direntSize * ·) := by
  have hloop : ∀ m k fuel, k + m = dirSlots + 1 → m < fuel → mappingLoop data name fuel (direntSize * k) =
      ((List.range' k m).find? fun k =>
        strncmp (readEntry data (direntSize * k)).name name nameMax = 0).map (direntSize * ·) := by
    intro m
    induction m with
    | zero =>
        intro k fuel hk hf
        obtain ⟨fuel, rfl⟩ := Nat.exists_eq_succ_of_ne_zero (Nat.ne_of_gt hf)
        rw [mappingLoop, if_neg (by unfold blockSectorSize direntSize dirSlots at *; omega)]
        rfl
    | succ m ih =>
        intro k fuel hk hf
        obtain ⟨fuel, rfl⟩ := Nat.exists_eq_succ_of_ne_zero (Nat.ne_of_gt (Nat.zero_lt_of_lt hf))
        rw [mappingLoop, if_pos (by unfold blockSectorSize direntSize dirSlots at *; omega), List.range'_succ,
          List.find?_cons]
        by_cases hs : strncmp (readEntry data (direntSize * k)).name name nameMax = 0
        · simp [hs]
        · simp only [hs, if_false, decide_false]
          exact ih (k + 1) fuel (by omega) (by omega)
  rw [List.range_eq_range']
  exact hloop (dirSlots + 1) 0 blockSectorSize (by decide) (by decide)

/-- The slot begins with the characters of the name, as far as `strncmp` goes. -/
def SlotBegins (data : ℕ → Byte) (k : ℕ) (n : FileName) : Prop :=
  ∀ i < nameMax, (readEntry data (direntSize * k)).name i = n.bytes i

instance (data : ℕ → Byte) (k : ℕ) (n : FileName) : Decidable (SlotBegins data k n) :=
  inferInstanceAs (Decidable (∀ i < nameMax, _ = _))

theorem dirGetMapping_fst (data : ℕ → Byte) (n : FileName) : (dirGetMapping data n.bytes).1 =
    (((List.range (dirSlots + 1)).find? fun k => n.chars.length = nameMax ∧ SlotBegins data k n).map
      (slotSector data)).getD dirNpos := by
  have hp : (fun k => decide (strncmp (readEntry data (direntSize * k)).name n.bytes nameMax = 0)) =
      fun k => decide (n.chars.length = nameMax ∧ SlotBegins data k n) := by
    funext k
    exact decide_eq_decide.mpr strncmp_name_iff
  unfold dirGetMapping
  rw [mappingLoop_eq, hp]
  cases (List.range (dirSlots + 1)).find? _ <;> rfl

/-- A name of fewer than 32 characters is never found. -/
theorem lookup_short (h : n.chars.length ≠ nameMax) : (dirGetMapping data n.bytes).1 = dirNpos := by
  rw [dirGetMapping_fst, List.find?_eq_none.mpr fun k _ => by simp [h]]
  rfl

/-- In a slot, a name of 32 characters is followed by its terminator. -/
theorem DirFormed.holds_iff (hf : DirFormed data) (hk : k < dirSlots) (hn : n.chars.length = nameMax) :
    SlotHolds data k n ↔ SlotBegins data k n := by
  constructor
  · exact fun h i hi => h i (hn ▸ Nat.le_of_lt hi)
  · intro h
    have hne : ∀ i < nameMax, (readEntry data (direntSize * k)).name i ≠ 0 := fun i hi h₀ =>
      n.bytes_ne (hn ▸ hi) ((h i hi).symm.trans h₀)
    obtain ⟨n', hn'⟩ := (hf.slot k hk).resolve_left (hne 0 (by decide))
    have hlen : n'.chars.length = nameMax := by
      by_contra hne'
      refine hne _ (Nat.lt_of_le_of_ne n'.length_le hne') ?_
      rw [hn' _ (Nat.le_refl _), n'.bytes_length]
    intro i hi
    rcases Nat.lt_or_eq_of_le hi with hlt | rfl
    · exact h i (hn ▸ hlt)
    · rw [hn' _ (by omega), n.bytes_length, hn, ← hlen, n'.bytes_length]

/-- A name of 32 characters is looked for in the entries, and then behind them. -/
theorem lookup_long (hf : DirFormed data) (hn : n.chars.length = nameMax) : (dirGetMapping data n.bytes).1 =
    (dirEntries data n).getD (if SlotBegins data dirSlots n then slotSector data dirSlots else dirNpos) := by
  have hfind : ((List.range dirSlots).find? fun k => n.chars.length = nameMax ∧ SlotBegins data k n) =
      (List.range dirSlots).find? fun k => SlotHolds data k n := by
    refine List.find?_congr fun k hk => decide_eq_decide.mpr ?_
    rw [hf.holds_iff (List.mem_range.mp hk) hn]
    exact and_iff_right hn
  rw [dirGetMapping_fst, List.range_succ, List.find?_append, hfind, dirEntries]
  cases (List.range dirSlots).find? fun k => SlotHolds data k n with
  | some k => rfl
  | none =>
      rw [Option.none_or, List.find?_singleton]
      by_cases ht : SlotBegins data dirSlots n <;> simp [hn, ht]

theorem slot_of_find? {m : ℕ} (h : ((List.range m).find? fun k => SlotHolds data k n) = some k) :
    k < m ∧ SlotHolds data k n := by
  have hk : decide (SlotHolds data k n) = true := List.find?_some (p := fun k => decide (SlotHolds data k n)) h
  exact ⟨List.mem_range.mp (List.mem_of_find?_eq_some h), of_decide_eq_true hk⟩

theorem dirEntries_eq_some (hf : DirFormed data) (hk : k < dirSlots) (hn : SlotHolds data k n) :
    dirEntries data n = some (slotSector data k) := by
  unfold dirEntries
  cases h : (List.range dirSlots).find? fun k => SlotHolds data k n with
  | none => exact absurd (decide_eq_true hn) (List.find?_eq_none.mp h k (List.mem_range.mpr hk))
  | some k' =>
      obtain ⟨hk', hn'⟩ := slot_of_find? h
      rw [hf.unique k hk k' hk' n hn hn']
      rfl

theorem exists_slot_of_dirEntries {sector : BitVec 64} (h : dirEntries data n = some sector) :
    ∃ k < dirSlots, SlotHolds data k n ∧ slotSector data k = sector := by
  obtain ⟨k, hk, hs⟩ := Option.map_eq_some_iff.mp h
  obtain ⟨hlt, hn⟩ := slot_of_find? hk
  exact ⟨k, hlt, hn, hs⟩

end

/-- Every entry under a name of fewer than 32 characters, and what stands behind the last slot if that reads as a name
of 32 characters which is in no slot, has the sector `INODE_DISK_NPOS`. -/
structure DirReadable (data : ℕ → Byte) : Prop where
  slot : ∀ k < dirSlots, ∀ n, SlotHolds data k n → n.chars.length = nameMax ∨ slotSector data k = dirNpos
  tail : ∀ n : FileName, n.chars.length = nameMax → SlotBegins data dirSlots n →
    (dirEntries data n).isSome ∨ slotSector data dirSlots = dirNpos

section
variable {data : ℕ → Byte}

theorem mappingsRight_iff (hf : DirFormed data) : MappingsRight data (dirEntries data) ↔ DirReadable data := by
  constructor
  · intro h
    refine ⟨fun k hk n hn => ?_, fun n hn ht => ?_⟩
    · by_cases hlen : n.chars.length = nameMax
      · exact .inl hlen
      · right
        have hr := h n
        rw [lookup_short hlen, dirEntries_eq_some hf hk hn] at hr
        exact hr.symm
    · cases he : dirEntries data n with
      | some _ => exact .inl rfl
      | none =>
          right
          have hr := h n
          rwa [lookup_long hf hn, he, if_pos ht] at hr
  · intro h n
    by_cases hlen : n.chars.length = nameMax
    · rw [lookup_long hf hlen]
      cases he : dirEntries data n with
      | some _ => rfl
      | none =>
          show (if SlotBegins data dirSlots n then slotSector data dirSlots else dirNpos) = dirNpos
          split_ifs with ht
          · exact (h.tail n hlen ht).resolve_left (by simp [he])
          · rfl
    · rw [lookup_short hlen]
      cases he : dirEntries data n with
      | none => rfl
      | some sector =>
          obtain ⟨k, hk, hn, hs⟩ := exists_slot_of_dirEntries he
          exact ((h.slot k hk n hn).resolve_left hlen).symm.trans hs

/-! ### Calls -/

theorem begins_of_mapping {name : ℕ → Byte} {ofs : ℕ} (h : (dirGetMapping data name).2 = some ofs) :
    strncmp (readEntry data ofs).name name nameMax = 0 := by
  unfold dirGetMapping at h
  cases hm : mappingLoop data name blockSectorSize 0 with
  | none => simp [hm] at h
  | some ofs' =>
      rw [hm] at h
      obtain rfl : ofs' = ofs := Option.some.inj h
      rw [mappingLoop_eq] at hm
      obtain ⟨k, hk, rfl⟩ := Option.map_eq_some_iff.mp hm
      exact of_decide_eq_true (List.find?_some
        (p := fun k => decide (strncmp (readEntry data (direntSize * k)).name name nameMax = 0)) hk)

theorem npos_of_mapping_none {name : ℕ → Byte} (h : (dirGetMapping data name).2 = none) :
    (dirGetMapping data name).1 = dirNpos := by
  unfold dirGetMapping at h ⊢
  cases hm : mappingLoop data name blockSectorSize 0 with
  | none => rfl
  | some ofs => simp [hm] at h

/-- A name that is not found is not added. -/
theorem dirAddFile_of_npos {name : ℕ → Byte} (h : (dirGetMapping data name).1 = dirNpos) (sector : BitVec 64)
    (ptr : Byte) : dirAddFile data sector name ptr = (data, some false) := by
  unfold dirAddFile
  cases hm : dirGetMapping data name with
  | mk mapped ofs =>
      rw [hm] at h
      cases ofs with
      | none => rfl
      | some ofs => exact if_neg (not_not.mpr h)

/-- A name that is found is written over: the second character becomes the terminator. -/
theorem dirAddFile_ne {n : FileName} (h : (dirGetMapping data n.bytes).1 ≠ dirNpos) (sector : BitVec 64) (ptr : Byte) :
    (dirAddFile data sector n.bytes ptr).1 ≠ data := by
  cases ho : (dirGetMapping data n.bytes).2 with
  | none => exact absurd (npos_of_mapping_none ho) h
  | some ofs =>
      obtain ⟨hlen, hb⟩ := strncmp_name_iff.mp (begins_of_mapping ho)
      have hone : data (ofs + 1) ≠ 0 := by
        rw [hb 1 (by decide)]
        exact n.bytes_ne (by rw [hlen]; decide)
      have hm : dirGetMapping data n.bytes = ((dirGetMapping data n.bytes).1, some ofs) := Prod.ext rfl ho
      intro heq
      apply hone
      rw [← congrFun heq (ofs + 1)]
      unfold dirAddFile
      rw [hm]
      show (if (dirGetMapping data n.bytes).1 ≠ dirNpos then _ else _ : (ℕ → Byte) × Option Bool).1 (ofs + 1) = 0
      rw [if_pos h]
      show (if ofs ≤ ofs + 1 ∧ ofs + 1 < ofs + direntSize then _ else data (ofs + 1)) = 0
      rw [if_pos ⟨Nat.le_succ ofs, Nat.add_lt_add_left (by decide) ofs⟩, Nat.add_sub_cancel_left]
      rfl

theorem dirRemove_snd (name : ℕ → Byte) : (dirRemove data name).2 = none := by
  unfold dirRemove
  rcases dirGetMapping data name with ⟨sector, _ | ofs⟩ <;> rfl

end

/-- The calls with nothing to do: adding a name to a full directory, or one whose entry has the sector
`INODE_DISK_NPOS`. -/
def DirOp.Idle (data : ℕ → Byte) : DirOp → Prop
  | add _ n _ => (dirEntries data n = none ∧ ¬ HasRoom data) ∨ dirEntries data n = some dirNpos
  | remove _ => False

section
variable {data : ℕ → Byte}

theorem DirOp.Idle.run {op : DirOp} (h : op.Idle data) (hl : MappingsRight data (dirEntries data)) :
    op.run data = (data, some false) := by
  cases op with
  | remove n => exact h.elim
  | add sector n ptr =>
      refine dirAddFile_of_npos ?_ sector ptr
      rw [hl n]
      rcases h with ⟨h, -⟩ | h <;> rw [h] <;> rfl

theorem DirOp.Idle.track {op : DirOp} (h : op.Idle data) {m : FileName → Option (BitVec 64)} :
    op.track m (some false) = m := by
  cases op with
  | remove n => exact h.elim
  | add sector n ptr => rfl

/-- One call, where lookups are right. -/
theorem DirOp.right_iff {op : DirOp} (hl : MappingsRight data (dirEntries data)) :
    op.Right data (dirEntries data) (op.run data) ↔ op.Idle data := by
  constructor
  · intro h
    cases op with
    | remove n =>
        have hr : (dirRemove data n.bytes).2 = some (dirEntries data n).isSome := h
        rw [dirRemove_snd] at hr
        exact absurd hr (by simp)
    | add sector n ptr =>
        obtain ⟨hpresent, hnew, -⟩ := h
        cases he : dirEntries data n with
        | none =>
            refine .inl ⟨he, fun hroom => ?_⟩
            have hr := hnew he hroom
            have hm : (dirGetMapping data n.bytes).1 = dirNpos := by rw [hl n, he]; rfl
            rw [DirOp.run, dirAddFile_of_npos hm] at hr
            exact absurd hr (by simp)
        | some s =>
            right
            rw [he]
            by_contra hne
            have hm : (dirGetMapping data n.bytes).1 ≠ dirNpos := by
              rw [hl n, he]
              exact fun h₀ => hne (congrArg some h₀)
            exact dirAddFile_ne hm sector ptr (congrArg Prod.fst (hpresent (by rw [he]; rfl)))
  · intro h
    rw [h.run hl]
    cases op with
    | remove n => exact h.elim
    | add sector n ptr =>
        refine ⟨fun _ => rfl, fun hnone hroom => ?_, fun _ _ _ => rfl⟩
        rcases h with ⟨-, hfull⟩ | h
        · exact absurd hroom hfull
        · rw [hnone] at h
          exact absurd h (by simp)

end

/-- **Directories.**  For every directory of one sector and every sequence of calls, all lookups and calls are right if
and only if the directory is readable and no call has anything to do. -/
theorem directory_right_iff {data : ℕ → Byte} (hf : DirFormed data) (ops : List DirOp) :
    DirRight data (dirEntries data) ops ↔ DirReadable data ∧ ∀ op ∈ ops, op.Idle data := by
  rw [← mappingsRight_iff hf]
  induction ops with
  | nil => simp [DirRight]
  | cons op ops ih =>
      rw [DirRight, List.forall_mem_cons]
      constructor
      · rintro ⟨hl, hop, hops⟩
        have hidle := (DirOp.right_iff hl).mp hop
        rw [hidle.run hl, hidle.track] at hops
        exact ⟨hl, hidle, (ih.mp hops).2⟩
      · rintro ⟨hl, hidle, hops⟩
        refine ⟨hl, (DirOp.right_iff hl).mpr hidle, ?_⟩
        rw [hidle.run hl, hidle.track]
        exact ih.mpr ⟨hl, hops⟩

/-- 32 times the letter of a slot. -/
def slotLetters (k : Fin dirSlots) : FileName where
  chars := List.replicate nameMax (BitVec.ofNat 8 (97 + k))
  ne_nil := by simp [nameMax]
  length_le := by simp
  nonzero h := absurd (List.eq_of_mem_replicate h) (by revert k; decide)

/-- A full directory, with these names. -/
def fullDir (j : ℕ) : Byte := if j < 480 ∧ j % 40 < 32 then BitVec.ofNat 8 (97 + j / 40) else 0

theorem fullDir_slot {k i : ℕ} (hk : k < dirSlots) (hi : i < nameMax) :
    (readEntry fullDir (direntSize * k)).name i = BitVec.ofNat 8 (97 + k) := by
  unfold dirSlots at hk
  unfold nameMax at hi
  have hdiv : (40 * k + i) / 40 = k := by omega
  show (if 40 * k + i < 480 ∧ (40 * k + i) % 40 < 32 then BitVec.ofNat 8 (97 + (40 * k + i) / 40) else 0) = _
  rw [if_pos (by omega), hdiv]

theorem fullDir_slot_ne {k i : ℕ} (hk : k < dirSlots) (hi : i < nameMax) :
    (readEntry fullDir (direntSize * k)).name i ≠ 0 := by
  rw [fullDir_slot hk hi]
  unfold dirSlots at hk
  intro h
  have hnat := congrArg BitVec.toNat h
  rw [BitVec.toNat_ofNat, show (0 : Byte).toNat = 0 from rfl] at hnat
  omega

theorem fullDir_holds (k : Fin dirSlots) : SlotHolds fullDir k (slotLetters k) := by
  intro i hi
  have hlen : (slotLetters k).chars.length = nameMax := List.length_replicate
  rw [hlen] at hi
  rcases Nat.lt_or_eq_of_le hi with hlt | rfl
  · rw [fullDir_slot k.isLt hlt, FileName.bytes, List.getD_eq_getElem _ _ (hlen ▸ hlt)]
    exact (List.getElem_replicate _).symm
  · rw [← hlen, (slotLetters k).bytes_length, hlen]
    show (if 40 * k.val + 32 < 480 ∧ (40 * k.val + 32) % 40 < 32 then _ else 0) = _
    rw [if_neg (by omega)]

/-- A slot holds 32 letters. -/
theorem fullDir_length {k : ℕ} (hk : k < dirSlots) {n : FileName} (hn : SlotHolds fullDir k n) :
    n.chars.length = nameMax := by
  by_contra hne
  refine fullDir_slot_ne hk (Nat.lt_of_le_of_ne n.length_le hne) ?_
  rw [hn _ (Nat.le_refl _), n.bytes_length]

theorem fullDir_formed : DirFormed fullDir where
  slot k hk := .inr ⟨_, fullDir_holds ⟨k, hk⟩⟩
  unique k hk k' hk' n hn hn' := by
    have heq : BitVec.ofNat 8 (97 + k) = BitVec.ofNat 8 (97 + k') := by
      rw [← fullDir_slot hk (i := 0) (by decide), ← fullDir_slot hk' (i := 0) (by decide), hn 0 (Nat.zero_le _),
        hn' 0 (Nat.zero_le _)]
    have hnat := congrArg BitVec.toNat heq
    unfold dirSlots at hk hk'
    rw [BitVec.toNat_ofNat, BitVec.toNat_ofNat] at hnat
    omega

theorem fullDir_readable : DirReadable fullDir where
  slot _ hk _ hn := .inl (fullDir_length hk hn)
  tail n hlen ht := absurd (ht 0 (by decide)).symm (n.bytes_ne (by rw [hlen]; decide))

def nameA : FileName := ⟨[97], by decide, by decide, by decide⟩

theorem directory_right_iff_full : DirRight fullDir (dirEntries fullDir) [.add 5 nameA 0] := by
  refine (directory_right_iff fullDir_formed _).mpr ⟨fullDir_readable, fun op hop => ?_⟩
  rw [List.mem_singleton] at hop
  subst hop
  refine .inl ⟨?_, fun ⟨k, hk, hfree⟩ => fullDir_slot_ne hk (by decide) hfree⟩
  cases he : dirEntries fullDir nameA with
  | none => rfl
  | some sector =>
      obtain ⟨k, hk, hn, -⟩ := exists_slot_of_dirEntries he
      exact absurd (fullDir_length hk hn) (by decide)

/-- In an empty directory `dir_add_file` does not add the name `a`. -/
theorem directory_refuses_first : DirFormed (fun _ => 0) ∧ HasRoom (fun _ => 0) ∧
    dirAddFile (fun _ => 0) 5 nameA.bytes 0 = (fun _ => 0, some false) ∧
      ¬ DirRight (fun _ => 0) (dirEntries fun _ => 0) [.add 5 nameA 0] := by
  have hnone : ∀ k (n : FileName), ¬ SlotHolds (fun _ => 0) k n := fun k n hn =>
    n.bytes_ne (List.length_pos_iff.mpr n.ne_nil) (hn 0 (Nat.zero_le _)).symm
  have hroom : HasRoom fun _ => 0 := ⟨0, by decide, rfl⟩
  have hadd : dirAddFile (fun _ => 0) 5 nameA.bytes 0 = (fun _ => 0, some false) :=
    dirAddFile_of_npos (lookup_short (by decide)) 5 0
  refine ⟨⟨fun k _ => .inl rfl, fun k _ _ _ n hn => absurd hn (hnone k n)⟩, hroom, hadd, ?_⟩
  rintro ⟨-, ⟨-, hnew, -⟩, -⟩
  have he : dirEntries (fun _ => 0) nameA = none := by
    cases he : dirEntries (fun _ => 0) nameA with
    | none => rfl
    | some sector =>
        obtain ⟨k, -, hn, -⟩ := exists_slot_of_dirEntries he
        exact absurd hn (hnone k nameA)
  have hr := hnew he hroom
  rw [DirOp.run, hadd] at hr
  exact absurd hr (by simp)

end Dunkos
