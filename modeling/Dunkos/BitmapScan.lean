import Dunkos.Bitmap
import Dunkos.Lib.Loop
import Mathlib.Order.Bounds.Basic

/-! # `bitmap_scan` and `bitmap_all`, with loops that may not end (`util/bitmap.c`)

`bitmapScanLoop` has the two loops of the source as they stand there, and the additions wrap.  With one round
of fuel for every bit of the map it returns what `bitmapScan` does (`bitmapScanLoop_eq`), so that
`bitmap_scan_least` is about the loops themselves.

`bitmap_all` compares the result with `start`, also where that is `BITMAP_NPOS`: `bitmap_all_right_iff`. -/

namespace Dunkos

open Loop

/-- The inner loop of `bitmap_scan`, to `bits_scanned`. -/
def scanBits (fuel : ℕ) (bm : Bitmap) (start nbits : ℕ) (b : Bool) : Option ℕ :=
  runWhile (fun bitsScanned => decide ((start + bitsScanned) % 2 ^ 64 < bm.bitcount ∧ bitsScanned < nbits ∧
      bitmapTest bm ((start + bitsScanned) % 2 ^ 64) = b))
    (fun bitsScanned => some (bitsScanned + 1)) fuel 0

/-- The variables of the outer loop. -/
structure ScanState where
  start : ℕ
  bitFound : Bool

def scanRound (fuel : ℕ) (bm : Bitmap) (nbits : ℕ) (b : Bool) (s : ScanState) : Option ScanState :=
  (scanBits fuel bm s.start nbits b).map fun bitsScanned =>
    { start := if bitsScanned = nbits then s.start else (s.start + max bitsScanned 1) % 2 ^ 64
      bitFound := decide (bitsScanned = nbits) }

/-- `bitmap_scan`; `none` when `fuel` rounds are not enough for one of the loops. -/
def bitmapScanLoop (fuel : ℕ) (bm : Bitmap) (start nbits : ℕ) (b : Bool) : Option ℕ :=
  (runWhile (fun s => decide (s.start < bm.bitcount ∧ s.bitFound = false)) (scanRound fuel bm nbits b) fuel
    ⟨start, false⟩).map fun s => if s.bitFound then s.start else bitmapNpos

/-! ### The loops end -/

section
variable {bm : Bitmap} {start nbits fuel : ℕ} {b : Bool}

theorem bitmapRun_eq (bm : Bitmap) (start nbits : ℕ) (b : Bool) {k : ℕ} (hk : start + k < bm.bitcount) :
    bitmapRun bm start nbits b (bm.bitcount - start - k) k =
      if k < nbits ∧ bitmapTest bm (start + k) = b then
        bitmapRun bm start nbits b (bm.bitcount - start - (k + 1)) (k + 1)
      else k := by
  have hfuel : bm.bitcount - start - k = bm.bitcount - start - (k + 1) + 1 := by omega
  rw [hfuel, bitmapRun]
  simp only [hk, true_and]

theorem scanBits_eq (hs : start < bm.bitcount) (hf : bm.bitcount ≤ fuel) :
    scanBits fuel bm start nbits b = some (bitsScanned bm start nbits b) := by
  have hlt := bm.bitcount_lt
  -- the rounds that are left come to the same number
  have hloop : ∃ k, scanBits fuel bm start nbits b = some k ∧ (start + k ≤ bm.bitcount ∧
      bitmapRun bm start nbits b (bm.bitcount - start - k) k = bitsScanned bm start nbits b) ∧ _ :=
    runWhile_total (v := fun k => bm.bitcount - start - k) (fun k hI hgo => by
      obtain ⟨hle, hrun⟩ := hI
      obtain ⟨h₁, h₂, h₃⟩ := of_decide_eq_true hgo
      rw [Nat.mod_eq_of_lt (by omega)] at h₁ h₃
      rw [bitmapRun_eq bm start nbits b h₁, if_pos ⟨h₂, h₃⟩] at hrun
      exact ⟨k + 1, rfl, ⟨by omega, hrun⟩, by omega⟩) (by omega) ⟨by omega, rfl⟩
  obtain ⟨k, hk, ⟨hle, hrun⟩, hstop⟩ := hloop
  rw [hk, ← hrun]
  congr 1
  by_cases hend : start + k < bm.bitcount
  · have hno := of_decide_eq_false hstop
    rw [Nat.mod_eq_of_lt (by omega)] at hno
    rw [bitmapRun_eq bm start nbits b hend, if_neg fun h => hno ⟨hend, h⟩]
  · have hzero : bm.bitcount - start - k = 0 := by omega
    rw [hzero]
    rfl

/-- A round of the outer loop goes on behind the bits that were scanned, or has found the place. -/
theorem scanRound_eq {s : ScanState} (hs : s.start < bm.bitcount) (hf : bm.bitcount ≤ fuel) :
    ∃ t, scanRound fuel bm nbits b s = some t ∧ (t.bitFound = false → s.start < t.start) ∧
      bitmapScan bm s.start nbits b = if t.bitFound then t.start else bitmapScan bm t.start nbits b := by
  have hlt := bm.bitcount_lt
  obtain ⟨-, -, -, hle⟩ := @bitsScanned_spec bm s.start nbits b hs
  have hscan := scanLoop_eq bm s.start nbits b
  rw [if_pos hs] at hscan
  unfold scanRound
  rw [scanBits_eq hs hf, Option.map_some]
  by_cases hk : bitsScanned bm s.start nbits b = nbits
  · rw [if_pos hk] at hscan
    refine ⟨⟨s.start, true⟩, ?_, Bool.noConfusion, hscan⟩
    rw [if_pos hk, decide_eq_true hk]
  · rw [if_neg hk] at hscan
    refine ⟨⟨s.start + max (bitsScanned bm s.start nbits b) 1, false⟩, ?_, fun _ => ?_, hscan⟩
    · rw [if_neg hk, decide_eq_false hk, Nat.mod_eq_of_lt (by omega)]
    · show s.start < s.start + max (bitsScanned bm s.start nbits b) 1
      omega

/-- **Both loops end** after at most one round for every bit, and return what `bitmapScan` does. -/
theorem bitmapScanLoop_eq (hf : bm.bitcount ≤ fuel) :
    bitmapScanLoop fuel bm start nbits b = some (bitmapScan bm start nbits b) := by
  have hloop : ∃ s, runWhile (fun s => decide (s.start < bm.bitcount ∧ s.bitFound = false))
      (scanRound fuel bm nbits b) fuel ⟨start, false⟩ = some s ∧ bitmapScan bm start nbits b =
        (if s.bitFound then s.start else bitmapScan bm s.start nbits b) ∧ _ :=
    runWhile_total (v := fun s => if s.bitFound then 0 else bm.bitcount - s.start) (fun s hI hgo => by
      obtain ⟨hs, hfound⟩ := of_decide_eq_true hgo
      obtain ⟨t, ht, hnext, hscan⟩ := @scanRound_eq _ nbits _ b s hs hf
      have hne : ¬ s.bitFound = true := hfound ▸ Bool.false_ne_true
      rw [if_neg hne, hscan] at hI
      refine ⟨t, ht, hI, ?_⟩
      rw [if_neg hne]
      cases hfound' : t.bitFound with
      | true =>
          rw [if_pos rfl]
          omega
      | false =>
          have := hnext hfound'
          rw [if_neg Bool.false_ne_true]
          omega) (Nat.le_trans (Nat.sub_le _ _) hf) rfl
  obtain ⟨s, hs, hI, hstop⟩ := hloop
  unfold bitmapScanLoop
  rw [hs, Option.map_some, hI]
  cases hfound : s.bitFound with
  | true => rfl
  | false =>
      have hno := of_decide_eq_false hstop
      rw [if_neg (by decide), if_neg (by decide), scanLoop_eq, if_neg fun h => hno ⟨h, hfound⟩]

end

/-! ### What they return -/

/-- The places from `start` on where `nbits` bits equal to `b` lie inside the map. -/
def Bitmap.runsFrom (bm : Bitmap) (start nbits : ℕ) (b : Bool) : Set ℕ :=
  {i | start ≤ i ∧ i + nbits ≤ bm.bitcount ∧ ∀ j, i ≤ j → j < i + nbits → bitmapTest bm j = b}

theorem Bitmap.runAt_iff (bm : Bitmap) {nbits : ℕ} (hn : 1 ≤ nbits) (b : Bool) (i : ℕ) : bm.RunAt nbits b i ↔
    i + nbits ≤ bm.bitcount ∧ ∀ j, i ≤ j → j < i + nbits → bitmapTest bm j = b := by
  constructor
  · intro h
    exact ⟨h.le, fun j h₁ h₂ => h.eq j (Extent.covers_mk.mpr ⟨h₁, h₂⟩)⟩
  · rintro ⟨hle, heq⟩
    exact ⟨by omega, hle, fun j hj => heq j hj.1 hj.2⟩

/-- **`bitmap_scan` ends and finds the first run** from `start` on, and returns `BITMAP_NPOS` exactly when there is
none. -/
theorem bitmap_scan_least (bm : Bitmap) (start : ℕ) {nbits : ℕ} (hn : 1 ≤ nbits) (b : Bool) : ∃ r,
    (∀ fuel, bm.bitcount ≤ fuel → bitmapScanLoop fuel bm start nbits b = some r) ∧
      (r = bitmapNpos ↔ bm.runsFrom start nbits b = ∅) ∧
      (r ≠ bitmapNpos → IsLeast (bm.runsFrom start nbits b) r) := by
  refine ⟨bitmapScan bm start nbits b, fun fuel hf => bitmapScanLoop_eq hf, ?_⟩
  have hmem : ∀ i, i ∈ bm.runsFrom start nbits b ↔ start ≤ i ∧ bm.RunAt nbits b i := by
    intro i
    rw [bm.runAt_iff hn b i]
    rfl
  rcases bitmapScan_spec bm start nbits b with ⟨he, hno⟩ | ⟨r, he, hne, hle, hr, hno⟩
  · refine ⟨iff_of_true he ?_, fun hne => absurd he hne⟩
    apply Set.eq_empty_of_forall_notMem
    intro i hi
    obtain ⟨hle, hrun⟩ := (hmem i).mp hi
    exact hno i hle hrun
  · rw [he]
    refine ⟨iff_of_false hne fun hempty => ?_, fun _ => ⟨(hmem r).mpr ⟨hle, hr⟩, fun i hi => ?_⟩⟩
    · have hin : r ∈ bm.runsFrom start nbits b := (hmem r).mpr ⟨hle, hr⟩
      rw [hempty] at hin
      exact hin
    · obtain ⟨hle', hrun⟩ := (hmem i).mp hi
      by_contra hlt
      exact hno i hle' (Nat.lt_of_not_le hlt) hrun

/-- Ten bits, of which the fourth is set. -/
def fourthBit : Bitmap := ⟨10, 2, fun _ => 8#64, by decide⟩

/-- From the third bit on, two clear bits come behind the one that is set. -/
theorem bitmap_scan_least_two : bitmapScanLoop 10 fourthBit 2 2 false = some 4 ∧
    IsLeast (fourthBit.runsFrom 2 2 false) 4 := by
  obtain ⟨r, hr, -, hleast⟩ := @bitmap_scan_least fourthBit 2 2 (by decide) false
  have hscan : bitmapScanLoop 10 fourthBit 2 2 false = some 4 := by decide +kernel
  rw [hr 10 (Nat.le_refl 10), Option.some.injEq] at hscan
  subst hscan
  exact ⟨hr 10 (Nat.le_refl 10), hleast (by decide)⟩

/-- **`bitmap_all` is right exactly where `start` is not `BITMAP_NPOS`.** -/
theorem bitmap_all_right_iff (bm : Bitmap) (start : ℕ) {nbits : ℕ} (hn : 1 ≤ nbits) (b : Bool) :
    (bitmapAll bm start nbits b = true ↔
      start + nbits ≤ bm.bitcount ∧ ∀ j, start ≤ j → j < start + nbits → bitmapTest bm j = b) ↔
      start ≠ bitmapNpos := by
  constructor
  · rintro h rfl
    have hlt := bm.bitcount_lt
    have hout : ¬ bitmapNpos < bm.bitcount := by
      unfold bitmapNpos
      omega
    have hall : bitmapAll bm bitmapNpos nbits b = true := by
      unfold bitmapAll
      rw [scanLoop_eq, if_neg hout, beq_self_eq_true]
    have hle := (h.mp hall).1
    omega
  · intro hs
    rw [bitmapAll_iff bm hs, bm.runAt_iff hn b start]

/-- Two bits of ten from the place `2` on: the second of them is set. -/
theorem bitmap_all_right_iff_two : bitmapAll fourthBit 2 2 false = false := by
  have h := (@bitmap_all_right_iff fourthBit 2 2 (by decide) false).mpr (by decide)
  rw [Bool.eq_false_iff]
  intro hall
  have htest := (h.mp hall).2 3 (by decide) (by decide)
  exact absurd htest (by decide)

/-- **A start outside of the map**: `(size_t)-1` passes for a set bit of ten. -/
theorem bitmap_all_npos : bitmapAll fourthBit bitmapNpos 1 true = true ∧
    ¬ bitmapNpos + 1 ≤ fourthBit.bitcount := by
  refine ⟨?_, by decide⟩
  unfold bitmapAll
  rw [scanLoop_eq, if_neg (by decide), beq_self_eq_true]

end Dunkos
