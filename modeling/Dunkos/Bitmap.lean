import Dunkos.Lib.Ledger
import Dunkos.Lib.Reach
import Mathlib.Algebra.Group.Nat.Defs
import Mathlib.Logic.Function.Basic

/-! # Bitmaps (`util/bitmap.h`, `util/bitmap.c`)

A bitmap is a header and an array of 64-bit words; bit `i` is bit `i % 64` of word `i / 64`.  The
words are a function of their index, so that the model says what the code does outside of the
buffer too.  `bitmapSet` and `bitmapFlip` recurse on the number of bits left.  The two loops of
`bitmap_scan` are `bitmapRun` and `scanLoop`, with one round of fuel for every bit that is left in
the map; `scanLoop_eq` is the loop of the source, unrolled once, so the fuel never runs out.

`bitmapSet_test`, `bitmapFlip_test` and `bitmapScan_spec` say what the operations do to the bits;
`bitmap_range_allocator` puts them together over whole runs. -/

namespace Dunkos

/-- `BITMAP_NPOS`, `(size_t)-1`. -/
def bitmapNpos : ℕ := 2 ^ 64 - 1

/-- `ELEM_BITS`. -/
def elemBits : ℕ := 64

/-- `struct bitmap` and the words behind it; `bitcount` is a `size_t`. -/
structure Bitmap where
  bitcount : ℕ
  bufsize : ℕ
  words : ℕ → BitVec 64
  bitcount_lt : bitcount < 2 ^ 64

def bitToElem (bitIndex : ℕ) : ℕ := bitIndex / elemBits

def bitmapElem (bm : Bitmap) (bitIndex : ℕ) : BitVec 64 := bm.words (bitToElem bitIndex)

def bitmapMask (bitIndex : ℕ) : BitVec 64 := 1#64 <<< (bitIndex % elemBits)

/-- `*bitmap_elem(bm, bit_index) = w`. -/
def Bitmap.setElem (bm : Bitmap) (bitIndex : ℕ) (w : BitVec 64) : Bitmap :=
  { bm with words := Function.update bm.words (bitToElem bitIndex) w }

/-- `div_rnd_up(bits, 8)`. -/
def bitmapBufsize (bits : ℕ) : ℕ := (bits + 7) % 2 ^ 64 / 8

/-- The first `size` bytes of `words` cleared.  `kmalloc` clears its block; the `memset` in `bitmap_create` clears it
again, up to the last byte of what was asked for. -/
def zeroBytes (words : ℕ → BitVec 64) (size : ℕ) (w : ℕ) : BitVec 64 :=
  if 8 * (w + 1) ≤ size then 0 else words w &&& (BitVec.allOnes 64 <<< (8 * (size - 8 * w)))

/-- `words` is what the memory that `kmalloc` finds holds behind the header. -/
def bitmapCreate (bits : ℕ) (h : bits < 2 ^ 64) (words : ℕ → BitVec 64) : Bitmap :=
  ⟨bits, bitmapBufsize bits, zeroBytes words (bitmapBufsize bits), h⟩

/-- `words` is what `buf` holds behind the header. -/
def bitmapCreateBuffer (bits : ℕ) (h : bits < 2 ^ 64) (words : ℕ → BitVec 64) (size : ℕ) : Bitmap :=
  ⟨bits, size, words, h⟩

def bitmapSize (bm : Bitmap) : ℕ := bm.bitcount

def bitmapTest (bm : Bitmap) (bitIndex : ℕ) : Bool := bitmapElem bm bitIndex &&& bitmapMask bitIndex != 0

/-- `*elem_ptr |= elem_mask` or `*elem_ptr &= ~elem_mask`. -/
def Bitmap.setBit (bm : Bitmap) (i : ℕ) (b : Bool) : Bitmap :=
  bm.setElem i (if b then bitmapElem bm i ||| bitmapMask i else bitmapElem bm i &&& ~~~bitmapMask i)

def bitmapSet (bm : Bitmap) (start : ℕ) : ℕ → Bool → Bitmap
  | 0, _ => bm
  | nbits + 1, b => if start < bm.bitcount then bitmapSet (bm.setBit start b) (start + 1) nbits b else bm

/-- `*elem_ptr ^= elem_mask`. -/
def Bitmap.flipBit (bm : Bitmap) (i : ℕ) : Bitmap := bm.setElem i (bitmapElem bm i ^^^ bitmapMask i)

def bitmapFlip (bm : Bitmap) (start : ℕ) : ℕ → Bitmap
  | 0 => bm
  | nbits + 1 => if start < bm.bitcount then bitmapFlip (bm.flipBit start) (start + 1) nbits else bm

/-- The inner loop of `bitmap_scan`; the second number is `bits_scanned`. -/
def bitmapRun (bm : Bitmap) (start nbits : ℕ) (b : Bool) : ℕ → ℕ → ℕ
  | 0, k => k
  | fuel + 1, k =>
    if start + k < bm.bitcount ∧ k < nbits ∧ bitmapTest bm (start + k) = b then
      bitmapRun bm start nbits b fuel (k + 1)
    else k

/-- `bits_scanned` after the inner loop. -/
def bitsScanned (bm : Bitmap) (start nbits : ℕ) (b : Bool) : ℕ :=
  bitmapRun bm start nbits b (bm.bitcount - start) 0

/-- The outer loop of `bitmap_scan`, to the value returned. -/
def scanLoop (bm : Bitmap) (nbits : ℕ) (b : Bool) : ℕ → ℕ → ℕ
  | 0, _ => bitmapNpos
  | fuel + 1, start =>
    if start < bm.bitcount then
      if bitsScanned bm start nbits b = nbits then start
      else scanLoop bm nbits b fuel (start + max (bitsScanned bm start nbits b) 1)
    else bitmapNpos

def bitmapScan (bm : Bitmap) (start nbits : ℕ) (b : Bool) : ℕ :=
  scanLoop bm nbits b (bm.bitcount - start) start

def bitmapScanAndFlip (bm : Bitmap) (start nbits : ℕ) (b : Bool) : ℕ × Bitmap :=
  let index := bitmapScan bm start nbits b
  (index, if index ≠ bitmapNpos then bitmapFlip bm index nbits else bm)

def bitmapAll (bm : Bitmap) (start nbits : ℕ) (b : Bool) : Bool := bitmapScan bm start nbits b == start

/-! ### Words and bits -/

theorem bitmapMask_eq (i : ℕ) : bitmapMask i = BitVec.twoPow 64 (i % 64) := (BitVec.twoPow_eq 64 _).symm

theorem bitmapTest_eq (bm : Bitmap) (i : ℕ) : bitmapTest bm i = (bm.words (i / 64)).getLsbD (i % 64) := by
  unfold bitmapTest bitmapElem bitToElem elemBits
  rw [bitmapMask_eq, BitVec.and_twoPow]
  have hi : i % 64 < 64 := Nat.mod_lt _ (by decide)
  have hne : BitVec.twoPow 64 (i % 64) ≠ 0 := by
    intro h
    have := congrArg BitVec.toNat h
    rw [BitVec.toNat_twoPow_of_lt hi] at this
    exact absurd this (Nat.ne_of_gt (Nat.two_pow_pos _))
  cases hb : (bm.words (i / 64)).getLsbD (i % 64) with
  | true => simpa using hne
  | false => simp

theorem setElem_test (bm : Bitmap) (i : ℕ) (w : BitVec 64) (j : ℕ) : bitmapTest (bm.setElem i w) j =
    if j / 64 = i / 64 then w.getLsbD (j % 64) else bitmapTest bm j := by
  rw [bitmapTest_eq, bitmapTest_eq]
  unfold Bitmap.setElem bitToElem elemBits
  show (Function.update bm.words (i / 64) w (j / 64)).getLsbD (j % 64) = _
  rw [Function.update_apply]
  split_ifs <;> rfl

/-- Writing one word that differs from the old one in bit `i` at most writes bit `i`. -/
theorem setElem_bit (bm : Bitmap) (i : ℕ) {w : BitVec 64}
    (hw : ∀ k, k < 64 → k ≠ i % 64 → w.getLsbD k = (bm.words (i / 64)).getLsbD k) (j : ℕ) :
    bitmapTest (bm.setElem i w) j = if j = i then w.getLsbD (i % 64) else bitmapTest bm j := by
  rw [setElem_test]
  by_cases hj : j / 64 = i / 64
  · rw [if_pos hj]
    by_cases hji : j = i
    · rw [if_pos hji, hji]
    · rw [if_neg hji, hw (j % 64) (Nat.mod_lt _ (by decide)) (by omega), bitmapTest_eq, hj]
  · rw [if_neg hj, if_neg (by rintro rfl; exact hj rfl)]

theorem setBit_test (bm : Bitmap) (i : ℕ) (b : Bool) (j : ℕ) :
    bitmapTest (bm.setBit i b) j = if j = i then b else bitmapTest bm j := by
  have hi : i % 64 < 64 := Nat.mod_lt _ (by decide)
  unfold Bitmap.setBit bitmapElem bitToElem elemBits
  rw [bitmapMask_eq]
  cases b with
  | true =>
      rw [if_pos rfl, setElem_bit]
      · simp [hi]
      · intro k _ hne
        simp [BitVec.getLsbD_twoPow, Ne.symm hne]
  | false =>
      rw [if_neg (by decide), setElem_bit]
      · simp [hi]
      · intro k hk hne
        simp [hk, hne]

theorem flipBit_test (bm : Bitmap) (i j : ℕ) :
    bitmapTest (bm.flipBit i) j = if j = i then !bitmapTest bm i else bitmapTest bm j := by
  have hi : i % 64 < 64 := Nat.mod_lt _ (by decide)
  unfold Bitmap.flipBit bitmapElem bitToElem elemBits
  rw [bitmapMask_eq, setElem_bit]
  · simp [hi, bitmapTest_eq bm i]
  · intro k _ hne
    simp [BitVec.getLsbD_twoPow, Ne.symm hne]

/-- The bytes below `size` hold no set bit. -/
theorem zeroBytes_test {words : ℕ → BitVec 64} {size i : ℕ} (hi : i < 8 * size) :
    (zeroBytes words size (i / 64)).getLsbD (i % 64) = false := by
  unfold zeroBytes
  split_ifs with h
  · simp
  · have : i % 64 < 8 * (size - 8 * (i / 64)) := by omega
    simp [this]

theorem bitmapCreate_test {bits : ℕ} (h : bits < 2 ^ 64) (words : ℕ → BitVec 64) {i : ℕ}
    (hsize : bits + 7 < 2 ^ 64) (hi : i < bits) : bitmapTest (bitmapCreate bits h words) i = false := by
  rw [bitmapTest_eq]
  apply zeroBytes_test
  unfold bitmapBufsize
  rw [Nat.mod_eq_of_lt hsize]
  omega

/-! ### Setting and flipping -/

@[simp] theorem setBit_bitcount (bm : Bitmap) (i : ℕ) (b : Bool) : (bm.setBit i b).bitcount = bm.bitcount := rfl

@[simp] theorem flipBit_bitcount (bm : Bitmap) (i : ℕ) : (bm.flipBit i).bitcount = bm.bitcount := rfl

@[simp] theorem bitmapSet_bitcount (bm : Bitmap) (start nbits : ℕ) (b : Bool) :
    (bitmapSet bm start nbits b).bitcount = bm.bitcount := by
  induction nbits generalizing bm start with
  | zero => rfl
  | succ n ih =>
      unfold bitmapSet
      split_ifs
      · rw [ih, setBit_bitcount]
      · rfl

@[simp] theorem bitmapFlip_bitcount (bm : Bitmap) (start nbits : ℕ) :
    (bitmapFlip bm start nbits).bitcount = bm.bitcount := by
  induction nbits generalizing bm start with
  | zero => rfl
  | succ n ih =>
      unfold bitmapFlip
      split_ifs
      · rw [ih, flipBit_bitcount]
      · rfl

theorem bitmapSet_test (bm : Bitmap) (start nbits : ℕ) (b : Bool) (j : ℕ) :
    bitmapTest (bitmapSet bm start nbits b) j =
      if (Extent.mk start nbits).Covers j ∧ j < bm.bitcount then b else bitmapTest bm j := by
  simp only [Extent.covers_mk]
  induction nbits generalizing bm start with
  | zero =>
      rw [bitmapSet, if_neg]
      omega
  | succ n ih =>
      unfold bitmapSet
      by_cases hs : start < bm.bitcount
      · rw [if_pos hs, ih, setBit_bitcount, setBit_test]
        split_ifs <;> first | rfl | omega
      · rw [if_neg hs, if_neg]
        omega

theorem bitmapFlip_test (bm : Bitmap) (start nbits j : ℕ) :
    bitmapTest (bitmapFlip bm start nbits) j =
      if (Extent.mk start nbits).Covers j ∧ j < bm.bitcount then !bitmapTest bm j else bitmapTest bm j := by
  simp only [Extent.covers_mk]
  induction nbits generalizing bm start with
  | zero =>
      rw [bitmapFlip, if_neg]
      omega
  | succ n ih =>
      unfold bitmapFlip
      by_cases hs : start < bm.bitcount
      · rw [if_pos hs, ih, flipBit_bitcount, flipBit_test]
        by_cases hj : j = start
        · subst hj
          rw [if_neg (by omega), if_pos rfl, if_pos (by omega)]
        · rw [if_neg hj]
          split_ifs <;> first | rfl | omega
      · rw [if_neg hs, if_neg]
        omega

/-! ### Scanning -/

/-- A run of `nbits` bits equal to `b` starts at `i`, inside the map. -/
structure Bitmap.RunAt (bm : Bitmap) (nbits : ℕ) (b : Bool) (i : ℕ) : Prop where
  lt : i < bm.bitcount
  le : i + nbits ≤ bm.bitcount
  eq : ∀ j, (Extent.mk i nbits).Covers j → bitmapTest bm j = b

/-- The inner loop counts bits that match, and stops at `nbits`, at the end of the map or at a bit
that does not match. -/
theorem bitmapRun_spec {bm : Bitmap} {start nbits : ℕ} {b : Bool} {fuel k : ℕ}
    (hk : k ≤ nbits) (hrun : ∀ j, start ≤ j → j < start + k → bitmapTest bm j = b)
    (hfuel : bm.bitcount ≤ start + k + fuel) :
    let r := bitmapRun bm start nbits b fuel k
    r ≤ nbits ∧ (∀ j, start ≤ j → j < start + r → bitmapTest bm j = b) ∧
      (r = nbits ∨ bm.bitcount ≤ start + r ∨ bitmapTest bm (start + r) ≠ b) ∧
      (start + k ≤ bm.bitcount → start + r ≤ bm.bitcount) := by
  induction fuel generalizing k with
  | zero => exact ⟨hk, hrun, .inr (.inl (by simpa [bitmapRun] using hfuel)), id⟩
  | succ n ih =>
      unfold bitmapRun
      split_ifs with h
      · obtain ⟨hlt, hkn, ht⟩ := h
        have hrun' : ∀ j, start ≤ j → j < start + (k + 1) → bitmapTest bm j = b := by
          intro j h₁ h₂
          by_cases hj : j = start + k
          · rw [hj, ht]
          · exact hrun j h₁ (by omega)
        obtain ⟨h₁, h₂, h₃, h₄⟩ := ih (by omega) hrun' (by omega)
        exact ⟨h₁, h₂, h₃, fun _ => h₄ (by omega)⟩
      · refine ⟨hk, hrun, ?_, id⟩
        by_cases h₁ : start + k < bm.bitcount
        · by_cases h₂ : k < nbits
          · exact .inr (.inr fun ht => h ⟨h₁, h₂, ht⟩)
          · exact .inl (by omega)
        · exact .inr (.inl (by omega))

theorem bitsScanned_spec {bm : Bitmap} {start nbits : ℕ} {b : Bool} (hs : start < bm.bitcount) :
    let r := bitsScanned bm start nbits b
    r ≤ nbits ∧ (∀ j, start ≤ j → j < start + r → bitmapTest bm j = b) ∧
      (r = nbits ∨ bm.bitcount ≤ start + r ∨ bitmapTest bm (start + r) ≠ b) ∧
      start + r ≤ bm.bitcount := by
  intro r
  obtain ⟨h₁, h₂, h₃, h₄⟩ := @bitmapRun_spec bm start nbits b (bm.bitcount - start) 0 (Nat.zero_le _)
    (by intros; omega) (by omega)
  exact ⟨h₁, h₂, h₃, h₄ (by omega)⟩

/-- All bits found: the run starts here. -/
theorem runAt_of_bitsScanned {bm : Bitmap} {start nbits : ℕ} {b : Bool} (hs : start < bm.bitcount)
    (h : bitsScanned bm start nbits b = nbits) : bm.RunAt nbits b start := by
  obtain ⟨-, h₂, -, h₄⟩ := @bitsScanned_spec bm start nbits b hs
  rw [h] at h₂ h₄
  exact ⟨hs, h₄, fun j hj => h₂ j hj.1 hj.2⟩

/-- Too few bits found: no run starts at the positions the outer loop skips. -/
theorem not_runAt_of_skipped {bm : Bitmap} {start nbits : ℕ} {b : Bool} (hs : start < bm.bitcount)
    (h : bitsScanned bm start nbits b ≠ nbits) {i : ℕ} (hi : start ≤ i)
    (hlt : i < start + max (bitsScanned bm start nbits b) 1) : ¬ bm.RunAt nbits b i := by
  obtain ⟨h₁, -, h₃, -⟩ := @bitsScanned_spec bm start nbits b hs
  rintro ⟨-, hin, hall⟩
  rcases h₃ with h₃ | h₃ | h₃
  · exact h h₃
  · omega
  · exact h₃ (hall _ (Extent.covers_mk.mpr ⟨by omega, by omega⟩))

/-- The fuel of the outer loop suffices: more of it changes nothing. -/
theorem scanLoop_fuel {bm : Bitmap} {nbits : ℕ} {b : Bool} {fuel start : ℕ}
    (h : bm.bitcount ≤ start + fuel) : scanLoop bm nbits b fuel start = bitmapScan bm start nbits b := by
  unfold bitmapScan
  have key : ∀ f f' start, bm.bitcount ≤ start + f → bm.bitcount ≤ start + f' →
      scanLoop bm nbits b f start = scanLoop bm nbits b f' start := by
    intro f
    induction f with
    | zero =>
        intro f' start hf _
        cases f' with
        | zero => rfl
        | succ f' => rw [scanLoop, scanLoop, if_neg (by omega)]
    | succ f ih =>
        intro f' start hf hf'
        cases f' with
        | zero => rw [scanLoop, scanLoop, if_neg (by omega)]
        | succ f' =>
            unfold scanLoop
            split_ifs
            · rfl
            · exact ih f' _ (by omega) (by omega)
            · rfl
  exact key _ _ _ h (by omega)

/-- The outer loop of the source, unrolled once. -/
theorem scanLoop_eq (bm : Bitmap) (start nbits : ℕ) (b : Bool) : bitmapScan bm start nbits b =
    if start < bm.bitcount then
      if bitsScanned bm start nbits b = nbits then start
      else bitmapScan bm (start + max (bitsScanned bm start nbits b) 1) nbits b
    else bitmapNpos := by
  by_cases hs : start < bm.bitcount
  · obtain ⟨f, hf⟩ : ∃ f, bm.bitcount - start = f + 1 := ⟨bm.bitcount - start - 1, by omega⟩
    have hscan : bitmapScan bm start nbits b = scanLoop bm nbits b (f + 1) start := by
      rw [bitmapScan, hf]
    rw [hscan, scanLoop, scanLoop_fuel (by omega)]
  · rw [if_neg hs, bitmapScan, Nat.sub_eq_zero_of_le (by omega), scanLoop]

/-- **`bitmap_scan` is a first-fit search**: it returns the least place from `start` on where a run
of `nbits` bits equal to `b` lies, and `BITMAP_NPOS` exactly when there is none. -/
theorem bitmapScan_spec (bm : Bitmap) (start nbits : ℕ) (b : Bool) :
    (bitmapScan bm start nbits b = bitmapNpos ∧ ∀ i, start ≤ i → ¬ bm.RunAt nbits b i) ∨
      ∃ r, bitmapScan bm start nbits b = r ∧ r ≠ bitmapNpos ∧ start ≤ r ∧ bm.RunAt nbits b r ∧
        ∀ i, start ≤ i → i < r → ¬ bm.RunAt nbits b i := by
  induction hd : bm.bitcount - start using Nat.strongRecOn generalizing start with
  | ind d ih =>
      rw [scanLoop_eq]
      by_cases hs : start < bm.bitcount
      · rw [if_pos hs]
        by_cases hk : bitsScanned bm start nbits b = nbits
        · rw [if_pos hk]
          have hlt := bm.bitcount_lt
          exact .inr ⟨start, rfl, by unfold bitmapNpos; omega, Nat.le_refl _, runAt_of_bitsScanned hs hk, by omega⟩
        · rw [if_neg hk]
          have hskip := fun i => not_runAt_of_skipped (i := i) hs hk
          have hdec : bm.bitcount - (start + max (bitsScanned bm start nbits b) 1) < d := by omega
          rcases ih _ hdec _ rfl with ⟨he, hno⟩ | ⟨r, he, hne, hle, hr, hno⟩
          · refine .inl ⟨he, fun i hi => ?_⟩
            by_cases hlt : i < start + max (bitsScanned bm start nbits b) 1
            · exact hskip i hi hlt
            · exact hno i (by omega)
          · refine .inr ⟨r, he, hne, by omega, hr, fun i hi hir => ?_⟩
            by_cases hlt : i < start + max (bitsScanned bm start nbits b) 1
            · exact hskip i hi hlt
            · exact hno i (by omega) hir
      · rw [if_neg hs]
        refine .inl ⟨rfl, fun i hi h => ?_⟩
        have := h.lt
        omega

/-- `bitmap_scan_and_flip` either fails and changes nothing, or flips the first run it finds. -/
theorem bitmapScanAndFlip_spec (bm : Bitmap) (start nbits : ℕ) (b : Bool) :
    (bitmapScanAndFlip bm start nbits b = (bitmapNpos, bm) ∧ ∀ i, start ≤ i → ¬ bm.RunAt nbits b i) ∨
      ∃ r, bitmapScanAndFlip bm start nbits b = (r, bitmapFlip bm r nbits) ∧ r ≠ bitmapNpos ∧
        start ≤ r ∧ bm.RunAt nbits b r ∧ ∀ i, start ≤ i → i < r → ¬ bm.RunAt nbits b i := by
  unfold bitmapScanAndFlip
  rcases bitmapScan_spec bm start nbits b with ⟨he, hno⟩ | ⟨r, he, hr⟩
  · refine .inl ⟨?_, hno⟩
    simp [he]
  · refine .inr ⟨r, ?_, hr⟩
    simp [he, hr.1]

/-- `bitmap_all` asks whether a run starts right here. -/
theorem bitmapAll_iff (bm : Bitmap) {start : ℕ} (hs : start ≠ bitmapNpos) (nbits : ℕ) (b : Bool) :
    bitmapAll bm start nbits b = true ↔ bm.RunAt nbits b start := by
  unfold bitmapAll
  rw [beq_iff_eq]
  obtain ⟨he, hno⟩ | ⟨r, he, -, hle, hr, hno⟩ := bitmapScan_spec bm start nbits b
  · rw [he]
    exact ⟨fun h => absurd h.symm hs, fun h => absurd h (hno start (Nat.le_refl _))⟩
  · rw [he]
    constructor
    · intro h
      exact h ▸ hr
    · intro h
      by_cases hlt : start < r
      · exact absurd h (hno start (Nat.le_refl _) hlt)
      · omega

/-! ### The range allocator -/

/-- The bits of the map that are set are the numbers that the ledger, of a part of the map, uses. -/
structure Accounts (bm : Bitmap) {bound : ℕ} (l : Ledger bound) : Prop where
  le : bound ≤ bm.bitcount
  test : ∀ i, i < bm.bitcount → (bitmapTest bm i = true ↔ l.Used i)

namespace Accounts
variable {bm bm' : Bitmap} {bound : ℕ} {l : Ledger bound} {r n : ℕ}

theorem empty (hle : bound ≤ bm.bitcount) (h : ∀ i, i < bm.bitcount → bitmapTest bm i = false) :
    Accounts bm (Ledger.empty bound) := by
  refine ⟨hle, fun i hi => ?_⟩
  rw [h i hi]
  simp

/-- No number of a run of clear bits is in use. -/
theorem not_used (h : Accounts bm l) (hr : bm.RunAt n false r) : ∀ i, (Extent.mk r n).Covers i → ¬ l.Used i := by
  intro i hi hu
  rw [← h.test i (Nat.lt_of_lt_of_le hu.lt h.le), hr.eq i hi] at hu
  cases hu

/-- Making all bits of a run of clear bits set writes the run into the ledger. -/
theorem take (h : Accounts bm l) (hr : bm.RunAt n false r) (hin : r + n ≤ bound)
    (hb : bm'.bitcount = bm.bitcount) (ht : ∀ i, i < bm.bitcount →
      bitmapTest bm' i = if (Extent.mk r n).Covers i then true else bitmapTest bm i) :
    Accounts bm' (l.take ⟨r, n⟩ hin (h.not_used hr)) := by
  refine ⟨hb ▸ h.le, fun i hi => ?_⟩
  rw [hb] at hi
  rw [ht i hi, Ledger.take_used]
  by_cases hc : (Extent.mk r n).Covers i
  · rw [if_pos hc]
    simp [hc]
  · rw [if_neg hc, h.test i hi]
    simp [hc]

theorem flip (h : Accounts bm l) (hr : bm.RunAt n false r) (hin : r + n ≤ bound) :
    Accounts (bitmapFlip bm r n) (l.take ⟨r, n⟩ hin (h.not_used hr)) := by
  refine h.take hr hin (bitmapFlip_bitcount _ _ _) fun i hi => ?_
  rw [bitmapFlip_test]
  by_cases hc : (Extent.mk r n).Covers i
  · rw [if_pos ⟨hc, hi⟩, if_pos hc, hr.eq i hc, Bool.not_false]
  · rw [if_neg (fun hc' => hc hc'.1), if_neg hc]

theorem set (h : Accounts bm l) (hr : bm.RunAt n false r) (hin : r + n ≤ bound) :
    Accounts (bitmapSet bm r n true) (l.take ⟨r, n⟩ hin (h.not_used hr)) := by
  refine h.take hr hin (bitmapSet_bitcount _ _ _ _) fun i hi => ?_
  rw [bitmapSet_test]
  simp [hi]

/-- Clearing an extent of the ledger strikes it out. -/
theorem clear (h : Accounts bm l) {e : Extent} (he : e ∈ l.extents) :
    Accounts (bitmapSet bm e.start e.len false) (l.give e) := by
  refine ⟨bitmapSet_bitcount bm _ _ _ ▸ h.le, fun i hi => ?_⟩
  rw [bitmapSet_bitcount] at hi
  rw [bitmapSet_test, Ledger.give_used he]
  by_cases hc : e.Covers i
  · rw [if_pos ⟨hc, hi⟩]
    simp [hc]
  · rw [if_neg (fun hc' => hc hc'.1), h.test i hi]
    simp [hc]

end Accounts

/-- Requests for `n` clear bits, and releases of a range handed out earlier. -/
inductive BitmapOp where
  | scanAndFlip (n : ℕ)
  | release (e : Extent)

/-- The bitmap and the ranges handed out and not yet released. -/
structure BitmapState where
  bm : Bitmap
  out : List Extent

namespace BitmapState

/-- `bitmap_scan_and_flip(bm, 0, n, false)` and `bitmap_set(bm, s, n, false)`. -/
def step (s : BitmapState) : BitmapOp → Option BitmapState
  | .scanAndFlip n =>
    let r := bitmapScanAndFlip s.bm 0 n false
    some ⟨r.2, if r.1 = bitmapNpos then s.out else ⟨r.1, n⟩ :: s.out⟩
  | .release e => some ⟨bitmapSet s.bm e.start e.len false, s.out.erase e⟩

theorem step_scanAndFlip (s : BitmapState) (n : ℕ) : s.step (.scanAndFlip n) =
    some ⟨(bitmapScanAndFlip s.bm 0 n false).2,
      if (bitmapScanAndFlip s.bm 0 n false).1 = bitmapNpos then s.out
      else ⟨(bitmapScanAndFlip s.bm 0 n false).1, n⟩ :: s.out⟩ := rfl

/-- A request is for at least one bit; what is released is outstanding. -/
def Ok (s : BitmapState) : BitmapOp → Prop
  | .scanAndFlip n => 1 ≤ n
  | .release e => e ∈ s.out

/-- The invariant of every run: the bitmap accounts for a ledger of the outstanding ranges. -/
def Inv (bound : ℕ) (s : BitmapState) : Prop :=
  s.bm.bitcount = bound ∧ ∃ l : Ledger bound, l.extents = s.out ∧ Accounts s.bm l

theorem inv_step {bound : ℕ} {s t : BitmapState} {op : BitmapOp} (hs : Inv bound s) (hok : s.Ok op)
    (hst : s.step op = some t) : Inv bound t := by
  obtain ⟨hb, l, hl, ha⟩ := hs
  cases op with
  | scanAndFlip n =>
      rcases bitmapScanAndFlip_spec s.bm 0 n false with ⟨he, -⟩ | ⟨r, he, hne, -, hr, -⟩
      · simp only [step, he] at hst
        cases hst
        exact ⟨hb, l, by simp [hl], ha⟩
      · simp only [step, he] at hst
        cases hst
        exact ⟨by rw [bitmapFlip_bitcount, hb], _, by simp [hl, hne], ha.flip hr (hb ▸ hr.le)⟩
  | release e =>
      cases hst
      have he : e ∈ l.extents := hl ▸ hok
      exact ⟨by rw [bitmapSet_bitcount, hb], l.give e, by simp [hl], ha.clear he⟩

end BitmapState

/-- **The bitmap is a correct range allocator.**  In every state that a run of requests and releases
reaches from a map without set bits: the outstanding ranges are pairwise apart and inside the map,
and the set bits are the numbers they cover; a further request for `n ≥ 1` bits that fails changes
nothing, and only fails when no run of `n` clear bits exists; one that succeeds returns a run of
clear bits inside the map and changes exactly the bits of that run. -/
theorem bitmap_range_allocator {bm₀ : Bitmap} (h₀ : ∀ i, i < bm₀.bitcount → bitmapTest bm₀ i = false)
    {s : BitmapState} (h : Transition.Reach BitmapState.step BitmapState.Ok ⟨bm₀, []⟩ s) :
    s.out.Pairwise Extent.Apart ∧ (∀ e ∈ s.out, e.start + e.len ≤ bm₀.bitcount) ∧
      (∀ i, i < bm₀.bitcount → (bitmapTest s.bm i = true ↔ ∃ e ∈ s.out, e.Covers i)) ∧
      ∀ n, 1 ≤ n →
        let index := (bitmapScanAndFlip s.bm 0 n false).1
        let bm' := (bitmapScanAndFlip s.bm 0 n false).2
        (index = bitmapNpos → bm' = s.bm ∧ ∀ i, ¬ s.bm.RunAt n false i) ∧
          (index ≠ bitmapNpos → index + n ≤ bm₀.bitcount ∧ s.bm.RunAt n false index ∧
            ∀ j, bitmapTest bm' j =
              if (Extent.mk index n).Covers j then !bitmapTest s.bm j else bitmapTest s.bm j) := by
  obtain ⟨hb, l, hl, ha⟩ := h.invariant (I := BitmapState.Inv bm₀.bitcount)
    ⟨rfl, _, rfl, Accounts.empty (Nat.le_refl _) h₀⟩ fun _ _ _ => BitmapState.inv_step
  refine ⟨hl ▸ l.apart, hl ▸ l.inside, fun i hi => hl ▸ ha.test i (hb ▸ hi), ?_⟩
  intro n hn
  rcases bitmapScanAndFlip_spec s.bm 0 n false with ⟨he, hno⟩ | ⟨r, he, hne, -, hr, -⟩
  · rw [he]
    exact ⟨fun _ => ⟨rfl, fun i => hno i (Nat.zero_le _)⟩, fun hne => absurd rfl hne⟩
  · rw [he]
    refine ⟨fun hr => absurd hr hne, fun _ => ⟨hb ▸ hr.le, hr, fun j => ?_⟩⟩
    rw [bitmapFlip_test]
    by_cases hc : (Extent.mk r n).Covers j
    · have hj : j < s.bm.bitcount := Nat.lt_of_lt_of_le hc.2 hr.le
      rw [if_pos ⟨hc, hj⟩, if_pos hc]
    · rw [if_neg (fun hc' => hc hc'.1), if_neg hc]

/-- In a map of `70` bits a request of `66`, across a word boundary, leaves no room for one of `5`. -/
theorem bitmap_range_allocator_refused :
    let bm₀ := bitmapCreate 70 (by decide) (fun w => BitVec.ofNat 64 w)
    let bm := (bitmapScanAndFlip bm₀ 0 66 false).2
    (bitmapScanAndFlip bm 0 5 false).1 = bitmapNpos ∧ ∀ i, ¬ bm.RunAt 5 false i := by
  intro bm₀ bm
  have h₀ : ∀ i, i < bm₀.bitcount → bitmapTest bm₀ i = false :=
    fun i hi => bitmapCreate_test _ _ (by decide) hi
  have hnpos : (bitmapScanAndFlip bm 0 5 false).1 = bitmapNpos := by decide +kernel
  clear_value bm₀
  have r₀ : Transition.Reach BitmapState.step BitmapState.Ok ⟨bm₀, []⟩ _ := .start
  have r₁ := r₀.next (a := BitmapOp.scanAndFlip 66) (by decide : 1 ≤ 66) (BitmapState.step_scanAndFlip _ 66)
  exact ⟨hnpos, (((bitmap_range_allocator h₀ r₁).2.2.2 5 (by decide)).1 hnpos).2⟩

end Dunkos
