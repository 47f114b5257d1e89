import Dunkos.Bitmap
import Dunkos.Thread

/-! # Semaphores of a process (`syscall.c`, `process.c`)

A process has a table of semaphores and a bitmap of their ids.  `sunget` clears the bit of an id that is
set, so the bits that are set stand for the ids in use.  `sget` also looks for a bit that is set, and
flips it: on a new process, whose bitmap is clear, it finds none, returns `-1`, and leaves all as it was.
It does not use its argument either.

`sget_right_iff` says that this goes on in every sequence of calls. -/

namespace Dunkos

open ThreadQueues

/-- `SEMTABLE_SIZE`. -/
def semtableSize : ℕ := 128

/-- The part of `struct process`; `semtable` is where the semaphores of the table begin among all. -/
structure SemTable where
  semtable : ℕ
  map : Bitmap

/-- As `process_init` sets it up; `words` is what the memory holds that `kmalloc` returns. -/
def createSemTable (semtable : ℕ) (words : ℕ → BitVec 64) : SemTable where
  semtable := semtable
  map := bitmapCreate semtableSize (by decide) words

/-- The result is cut to an `int`. -/
def sget (t : SemTable) (_value : ℕ) : SemTable × BitVec 32 :=
  let r := bitmapScanAndFlip t.map 0 1 true
  ({ t with map := r.2 }, BitVec.ofNat 32 r.1)

/-- `sema` is sign-extended where a `size_t` is meant. -/
def sunget (t : SemTable) (sema : BitVec 32) : SemTable :=
  let start := (sema.signExtend 64).toNat
  if bitmapAll t.map start 1 true then { t with map := bitmapSet t.map start 1 false } else t

inductive SemCall where
  | sget (value : ℕ)
  | sunget (sema : BitVec 32)
deriving DecidableEq, Repr

/-- The table, and the ids that `sget` returned and that were not given back. -/
structure SemHistory where
  table : SemTable
  allocated : List (BitVec 32)

namespace SemHistory

def step (s : SemHistory) : SemCall → SemHistory
  | .sget value =>
    let r := Dunkos.sget s.table value
    ⟨r.1, if r.2 = -1 then s.allocated else r.2 :: s.allocated⟩
  | .sunget sema => ⟨Dunkos.sunget s.table sema, s.allocated.erase sema⟩

/-- What a process relies on: `sget` returns an id in the table that is not in use, whose semaphore in
the kernel has the value asked for and no waiters, and fails only when all ids are in use; `sunget`
changes the bit of an id in use, and nothing otherwise. -/
def Right {M : Type} [ThreadQueues M] (k : Kernel M) (s : SemHistory) : SemCall → Prop
  | .sget value =>
    let id := (Dunkos.sget s.table value).2
    (id ≠ -1 → 0 ≤ id.toInt ∧ id.toInt < semtableSize ∧ id ∉ s.allocated ∧
        k.value (.sem (s.table.semtable + id.toNat)) = value ∧
        members k.mem (.sema (.sem (s.table.semtable + id.toNat))) = []) ∧
      (id = -1 → ∀ i : BitVec 32, 0 ≤ i.toInt → i.toInt < semtableSize → i ∈ s.allocated)
  | .sunget sema =>
    let t := Dunkos.sunget s.table sema
    (sema ∈ s.allocated → ∀ i, i < semtableSize →
        (bitmapTest t.map i ≠ bitmapTest s.table.map i ↔ i = sema.toNat)) ∧
      (sema ∉ s.allocated → t = s.table)

end SemHistory

/-! ### A clear bitmap -/

/-- No bit of the table is set. -/
def SemTable.Clear (t : SemTable) : Prop :=
  t.map.bitcount = semtableSize ∧ ∀ i, i < semtableSize → bitmapTest t.map i = false

theorem createSemTable_clear (semtable : ℕ) (words : ℕ → BitVec 64) : (createSemTable semtable words).Clear :=
  ⟨rfl, fun _ hi => bitmapCreate_test (by decide) words (by decide) hi⟩

namespace SemTable.Clear
variable {t : SemTable}

theorem not_runAt (h : t.Clear) (i : ℕ) : ¬ t.map.RunAt 1 true i := by
  intro hr
  have hi := hr.lt
  rw [h.1] at hi
  have ht := hr.eq i ⟨Nat.le_refl i, Nat.lt_succ_self i⟩
  rw [h.2 i hi] at ht
  cases ht

theorem sget_eq (h : t.Clear) (value : ℕ) : sget t value = (t, -1) := by
  unfold sget
  rcases bitmapScanAndFlip_spec t.map 0 1 true with ⟨he, -⟩ | ⟨r, -, -, -, hr, -⟩
  · rw [he]
    exact Prod.ext rfl (by decide : BitVec.ofNat 32 bitmapNpos = -1)
  · exact absurd hr (h.not_runAt r)

/-- The one id that passes the test is `-1`, where the search fails with the number it started at. -/
theorem sunget_eq (h : t.Clear) (sema : BitVec 32) : sunget t sema = t := by
  unfold sunget
  dsimp only
  split_ifs with hall
  · by_cases hs : (sema.signExtend 64).toNat = bitmapNpos
    · rw [hs]
      have hlt : ¬ bitmapNpos < t.map.bitcount := by
        rw [h.1]
        decide
      unfold bitmapSet
      rw [if_neg hlt]
    · exact absurd ((bitmapAll_iff _ hs 1 true).mp hall) (h.not_runAt _)
  · rfl

end SemTable.Clear

/-! ### Sequences of calls -/

namespace SemHistory

/-- A process that has just been set up. -/
def start (semtable : ℕ) (words : ℕ → BitVec 64) : SemHistory := ⟨createSemTable semtable words, []⟩

theorem step_clear {s : SemHistory} (h : s.table.Clear) (hs : s.allocated = []) (call : SemCall) : s.step call = s := by
  obtain ⟨t, allocated⟩ := s
  have hs' : allocated = [] := hs
  subst hs'
  cases call with
  | sget value =>
      unfold step
      dsimp only
      rw [h.sget_eq]
      rfl
  | sunget sema =>
      unfold step
      dsimp only
      rw [h.sunget_eq]
      rfl

/-- All calls leave a new process as it is. -/
theorem run_start (semtable : ℕ) (words : ℕ → BitVec 64) (calls : List SemCall) :
    calls.foldl step (start semtable words) = start semtable words := by
  induction calls with
  | nil => rfl
  | cons call calls ih =>
      rw [List.foldl_cons, step_clear (createSemTable_clear semtable words) rfl]
      exact ih

end SemHistory

open SemHistory

/-- **`sget` never succeeds.**  Of the calls that a process makes after `process_init`, all are right
exactly when none of them is `sget`: each of these returns `-1`, with all ids free. -/
theorem sget_right_iff {M : Type} [ThreadQueues M] (k : Kernel M) (semtable : ℕ) (words : ℕ → BitVec 64)
    (calls : List SemCall) :
    ((∀ before call, before ++ [call] <+: calls → Right k (before.foldl step (start semtable words)) call) ↔
      ∀ value, .sget value ∉ calls) ∧
    ∀ (before : List SemCall) (value : ℕ), (sget (before.foldl step (start semtable words)).table value).2 = -1 ∧
      (before.foldl step (start semtable words)).allocated = [] := by
  have hclear := createSemTable_clear semtable words
  refine ⟨⟨fun h value hmem => ?_, fun h before call hpre => ?_⟩, fun before value => ?_⟩
  · obtain ⟨before, after, rfl⟩ := List.append_of_mem hmem
    have hright := h before (.sget value) ⟨after, by simp⟩
    rw [run_start] at hright
    have hid : (sget (start semtable words).table value).2 = -1 := congrArg Prod.snd (hclear.sget_eq value)
    have hall := hright.2 hid 0 (by decide) (by decide)
    cases hall
  · rw [run_start]
    cases call with
    | sget value => exact absurd (hpre.subset (by simp)) (h value)
    | sunget sema => exact ⟨fun hmem => absurd hmem List.not_mem_nil, fun _ => hclear.sunget_eq sema⟩
  · rw [run_start]
    exact ⟨congrArg Prod.snd (hclear.sget_eq value), rfl⟩

/-- The first `sget` of a process fails, with no id in use. -/
theorem sget_fails_first :
    (sget (createSemTable 0 fun _ => 0) 1).2 = -1 ∧ (start 0 fun _ => 0).allocated = [] := by
  decide

end Dunkos
