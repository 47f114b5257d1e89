import Dunkos.BitmapScan
import Dunkos.Paging

/-! # The words of a bitmap (`util/bitmap.h`, `util/bitmap.c`)

`bitmap_create` allocates a byte for every eight bits, and all accesses are to words of eight bytes.  The models here say which
words the operations read and write; `bitmap_words_iff` says for which bit counts they are in the buffer.  The bitmaps of the
page pools, which are set up in a page each, have room enough. -/

namespace Dunkos

/-- Where `bitmap_elem` points to, in bytes behind the header. -/
def elemOffset (bitIndex : ℕ) : ℕ := 8 * bitToElem bitIndex

/-- `sizeof(struct bitmap)`. -/
def bitmapHeader : ℕ := 16

/-- `PHYSSIZE`. -/
def physSize : ℕ := 0x100000000

/-- The words that the loop of `bitmap_set` and `bitmap_flip` reads and writes. -/
def markWords (mark : Bitmap → ℕ → Bitmap) (bm : Bitmap) (start : ℕ) : ℕ → List ℕ
  | 0 => []
  | nbits + 1 =>
    if start < bm.bitcount then elemOffset start :: markWords mark (mark bm start) (start + 1) nbits else []

def bitmapSetWords (bm : Bitmap) (start nbits : ℕ) (b : Bool) : List ℕ :=
  markWords (fun bm i => bm.setBit i b) bm start nbits

def bitmapFlipWords (bm : Bitmap) (start nbits : ℕ) : List ℕ := markWords Bitmap.flipBit bm start nbits

/-- The inner loop of `bitmap_scan`, to `bits_scanned`, with the words that it reads. -/
def scanBitsWords (bm : Bitmap) (start nbits : ℕ) (b : Bool) : ℕ → ℕ → List ℕ → Option (ℕ × List ℕ)
  | 0, _, _ => none
  | fuel + 1, bitsScanned, words =>
    if (start + bitsScanned) % 2 ^ 64 < bm.bitcount ∧ bitsScanned < nbits then
      let words := words ++ [elemOffset ((start + bitsScanned) % 2 ^ 64)]
      if bitmapTest bm ((start + bitsScanned) % 2 ^ 64) = b then
        scanBitsWords bm start nbits b fuel (bitsScanned + 1) words
      else some (bitsScanned, words)
    else some (bitsScanned, words)

/-- The outer loop, with `rounds` of the inner one at most. -/
def scanWords (rounds : ℕ) (bm : Bitmap) (nbits : ℕ) (b : Bool) : ℕ → ℕ → List ℕ → Option (ℕ × List ℕ)
  | 0, _, _ => none
  | fuel + 1, start, words =>
    if start < bm.bitcount then
      (scanBitsWords bm start nbits b rounds 0 words).bind fun r =>
        if r.1 = nbits then some (start, r.2)
        else scanWords rounds bm nbits b fuel ((start + max r.1 1) % 2 ^ 64) r.2
    else some (bitmapNpos, words)

/-- `bitmap_scan`, with the words that it reads; `none` when `fuel` rounds are not enough for one of the loops. -/
def bitmapScanWords (fuel : ℕ) (bm : Bitmap) (start nbits : ℕ) (b : Bool) : Option (ℕ × List ℕ) :=
  scanWords fuel bm nbits b fuel start []

inductive BitmapCall where
  | set (start nbits : ℕ) (b : Bool)
  | flip (start nbits : ℕ)
  | scan (start nbits : ℕ) (b : Bool)

namespace BitmapCall

/-- The bitmap that a call leaves. -/
def step (bm : Bitmap) : BitmapCall → Bitmap
  | set start nbits b => bitmapSet bm start nbits b
  | flip start nbits => bitmapFlip bm start nbits
  | scan _ _ _ => bm

/-- The words that a call reads or writes. -/
def words (fuel : ℕ) (bm : Bitmap) : BitmapCall → Option (List ℕ)
  | set start nbits b => some (bitmapSetWords bm start nbits b)
  | flip start nbits => some (bitmapFlipWords bm start nbits)
  | scan start nbits b => (bitmapScanWords fuel bm start nbits b).map Prod.snd

end BitmapCall

/-! ### What is to hold -/

/-- Every call ends, after any others, and all of its words are in the `size` bytes behind the header. -/
def AccessWithin (bm : Bitmap) (size : ℕ) : Prop :=
  ∀ (calls : List BitmapCall) (c : BitmapCall) (fuel : ℕ), bm.bitcount < fuel →
    ∃ words, c.words fuel (calls.foldl BitmapCall.step bm) = some words ∧ ∀ w ∈ words, w + 8 ≤ size

/-- The words of a bitmap from `bitmap_create` are in its buffer. -/
def CreateWithin (bits : ℕ) (h : bits < 2 ^ 64) : Prop :=
  ∀ words, AccessWithin (bitmapCreate bits h words) (bitmapCreate bits h words).bufsize

/-- The words of the bitmap of a pool are in the page that `page_pool_init` sets aside. -/
def PoolWithin (pages : ℕ) (h : pages < 2 ^ 64) : Prop :=
  pages * pageSize ≤ physSize → ∀ base words, (pagePoolInit 0 pages base h words).mapAddr = base ∧
    (pagePoolInit 0 pages base h words).base = (base + pageSize) % 2 ^ 64 ∧
    AccessWithin (pagePoolInit 0 pages base h words).occupancyMap (pageSize - bitmapHeader)

/-! ### The words of the loops -/

section
variable {bm : Bitmap} {start nbits fuel : ℕ} {b : Bool}

/-- The words of the bits of the map. -/
def Bitmap.WordsOf (bm : Bitmap) (words : List ℕ) : Prop := ∀ w ∈ words, ∃ i < bm.bitcount, w = elemOffset i

theorem Bitmap.WordsOf.append {words : List ℕ} (h : bm.WordsOf words) {i : ℕ} (hi : i < bm.bitcount) :
    bm.WordsOf (words ++ [elemOffset i]) := by
  intro w hw
  rcases List.mem_append.mp hw with hw | hw
  · exact h w hw
  · exact ⟨i, hi, List.mem_singleton.mp hw⟩

theorem markWords_of {mark : Bitmap → ℕ → Bitmap} (hm : ∀ bm i, (mark bm i).bitcount = bm.bitcount) :
    bm.WordsOf (markWords mark bm start nbits) := by
  induction nbits generalizing bm start with
  | zero => exact fun w hw => absurd hw List.not_mem_nil
  | succ nbits ih =>
      rw [markWords]
      split_ifs with hs
      · intro w hw
        rcases List.mem_cons.mp hw with rfl | hw
        · exact ⟨start, hs, rfl⟩
        · obtain ⟨i, hi, hw⟩ := ih w hw
          exact ⟨i, hm bm start ▸ hi, hw⟩
      · exact fun w hw => absurd hw List.not_mem_nil

/-- The inner loop ends with the number that `bitmapRun` has, having read words of the map. -/
theorem scanBitsWords_of {k : ℕ} {words : List ℕ} (hk : start + k ≤ bm.bitcount) (hf : bm.bitcount - start - k < fuel)
    (hw : bm.WordsOf words) : ∃ words', bm.WordsOf words' ∧ scanBitsWords bm start nbits b fuel k words =
      some (bitmapRun bm start nbits b (bm.bitcount - start - k) k, words') := by
  have hlt := bm.bitcount_lt
  induction fuel generalizing k words with
  | zero => omega
  | succ fuel ih =>
      have hmod : (start + k) % 2 ^ 64 = start + k := Nat.mod_eq_of_lt (by omega)
      rw [scanBitsWords, hmod]
      by_cases hend : start + k < bm.bitcount
      · rw [bitmapRun_eq bm start nbits b hend]
        by_cases hn : k < nbits
        · rw [if_pos ⟨hend, hn⟩]
          have hw' := hw.append hend
          by_cases ht : bitmapTest bm (start + k) = b
          · have hgo : k < nbits ∧ bitmapTest bm (start + k) = b := ⟨hn, ht⟩
            rw [if_pos ht, if_pos hgo]
            exact ih (by omega) (by omega) hw'
          · have hstop : ¬ (k < nbits ∧ bitmapTest bm (start + k) = b) := fun h => ht h.2
            rw [if_neg ht, if_neg hstop]
            exact ⟨_, hw', rfl⟩
        · rw [if_neg fun h => hn h.2, if_neg fun h => hn h.1]
          exact ⟨words, hw, rfl⟩
      · have hzero : bm.bitcount - start - k = 0 := by omega
        rw [if_neg fun h => hend h.1, hzero]
        exact ⟨words, hw, rfl⟩

/-- The outer loop ends with the result of `bitmapScan`. -/
theorem scanWords_of {rounds : ℕ} {words : List ℕ} (hr : bm.bitcount < rounds) (hf : bm.bitcount - start < fuel)
    (hw : bm.WordsOf words) : ∃ words', bm.WordsOf words' ∧
      scanWords rounds bm nbits b fuel start words = some (bitmapScan bm start nbits b, words') := by
  have hlt := bm.bitcount_lt
  induction fuel generalizing start words with
  | zero => omega
  | succ fuel ih =>
      rw [scanWords, scanLoop_eq]
      by_cases hs : start < bm.bitcount
      · have hinner : ∃ words', bm.WordsOf words' ∧
            scanBitsWords bm start nbits b rounds 0 words = some (bitsScanned bm start nbits b, words') :=
          scanBitsWords_of (by omega) (by omega) hw
        obtain ⟨read, hread, hinner⟩ := hinner
        rw [if_pos hs, if_pos hs, hinner, Option.bind_some]
        by_cases hk : bitsScanned bm start nbits b = nbits
        · exact ⟨read, hread, by rw [if_pos hk, if_pos hk]⟩
        · obtain ⟨-, -, -, hle⟩ := @bitsScanned_spec bm start nbits b hs
          rw [if_neg hk, if_neg hk, Nat.mod_eq_of_lt (by omega)]
          exact ih (by omega) hread
      · rw [if_neg hs, if_neg hs]
        exact ⟨words, hw, rfl⟩

end

/-! ### The calls -/

theorem step_bitcount (bm : Bitmap) (c : BitmapCall) : (c.step bm).bitcount = bm.bitcount := by
  cases c with
  | set start nbits b => exact bitmapSet_bitcount bm start nbits b
  | flip start nbits => exact bitmapFlip_bitcount bm start nbits
  | scan start nbits b => rfl

theorem foldl_bitcount (bm : Bitmap) (calls : List BitmapCall) :
    (calls.foldl BitmapCall.step bm).bitcount = bm.bitcount := by
  induction calls generalizing bm with
  | nil => rfl
  | cons c calls ih => rw [List.foldl_cons, ih, step_bitcount]

/-- **A call ends**, and reads and writes words of the map only. -/
theorem words_of {bm : Bitmap} {fuel : ℕ} (hf : bm.bitcount < fuel) (c : BitmapCall) :
    ∃ words, c.words fuel bm = some words ∧ bm.WordsOf words := by
  cases c with
  | set start nbits b => exact ⟨_, rfl, markWords_of fun bm i => setBit_bitcount bm i b⟩
  | flip start nbits => exact ⟨_, rfl, markWords_of flipBit_bitcount⟩
  | scan start nbits b =>
      have hscan : ∃ words, bm.WordsOf words ∧
          bitmapScanWords fuel bm start nbits b = some (bitmapScan bm start nbits b, words) :=
        scanWords_of hf (by omega) fun w hw => absurd hw List.not_mem_nil
      obtain ⟨words, hwords, hscan⟩ := hscan
      refine ⟨words, ?_, hwords⟩
      rw [BitmapCall.words, hscan, Option.map_some]

/-- What is accessed ends with the word of the last bit. -/
theorem accessWithin_iff {bm : Bitmap} {size : ℕ} (hpos : 0 < bm.bitcount) :
    AccessWithin bm size ↔ elemOffset (bm.bitcount - 1) + 8 ≤ size := by
  constructor
  · intro h
    obtain ⟨words, hwords, hin⟩ := h [] (.set (bm.bitcount - 1) 1 true) (bm.bitcount + 1) (Nat.lt_succ_self _)
    have hlast : elemOffset (bm.bitcount - 1) ∈ bitmapSetWords bm (bm.bitcount - 1) 1 true := by
      rw [bitmapSetWords, markWords, if_pos (by omega)]
      exact List.mem_cons_self
    obtain rfl := Option.some.inj hwords
    exact hin _ hlast
  · intro h calls c fuel hf
    have hcount := foldl_bitcount bm calls
    obtain ⟨words, hwords, hof⟩ := words_of (hcount ▸ hf) c
    refine ⟨words, hwords, fun w hw => ?_⟩
    obtain ⟨i, hi, rfl⟩ := hof w hw
    unfold elemOffset bitToElem elemBits at *
    omega

/-- An empty map is not accessed. -/
theorem accessWithin_empty {bm : Bitmap} (hzero : bm.bitcount = 0) (size : ℕ) : AccessWithin bm size := by
  intro calls c fuel hf
  have hcount := foldl_bitcount bm calls
  obtain ⟨words, hwords, hof⟩ := words_of (hcount ▸ hf) c
  refine ⟨words, hwords, fun w hw => ?_⟩
  obtain ⟨i, hi, -⟩ := hof w hw
  omega

/-! ### The buffers -/

/-- **The bitmap of a pool** is in the page that is set aside for it. -/
theorem pool_within (pages : ℕ) (h : pages < 2 ^ 64) : PoolWithin pages h := by
  intro hphys base words
  have hone : pageRoundUp 0 / pageSize * pageSize = pageSize := by decide
  refine ⟨rfl, congrArg (fun a => (base + a) % 2 ^ 64) hone, ?_⟩
  rcases Nat.eq_zero_or_pos pages with hzero | hpos
  · exact accessWithin_empty hzero _
  · have hpos' : 0 < (pagePoolInit 0 pages base h words).occupancyMap.bitcount := hpos
    rw [accessWithin_iff hpos']
    show elemOffset (pages - 1) + 8 ≤ pageSize - bitmapHeader
    unfold elemOffset bitToElem elemBits pageSize bitmapHeader physSize at *
    omega

theorem createWithin_iff {bits : ℕ} (hpos : 0 < bits) (h : bits < 2 ^ 64) :
    CreateWithin bits h ↔ bits + 7 < 2 ^ 64 ∧ (bits % 64 = 0 ∨ 57 ≤ bits % 64) := by
  have hword : elemOffset (bits - 1) + 8 ≤ bitmapBufsize bits ↔
      bits + 7 < 2 ^ 64 ∧ (bits % 64 = 0 ∨ 57 ≤ bits % 64) := by
    unfold elemOffset bitToElem elemBits bitmapBufsize
    omega
  rw [← hword]
  exact ⟨fun hall => (accessWithin_iff hpos).mp (hall fun _ => 0), fun hle words => (accessWithin_iff hpos).mpr hle⟩

/-- The blocks of `kmalloc` have `8 << i` bytes, and hold the last word all the same. -/
theorem create_in_block {bits i : ℕ} (hpos : 0 < bits) (h : bits < 2 ^ 64) (hfit : bits + 7 < 2 ^ 64)
    (hblock : bitmapHeader + bitmapBufsize bits ≤ 8 <<< i) (words : ℕ → BitVec 64) :
    AccessWithin (bitmapCreate bits h words) (8 <<< i - bitmapHeader) := by
  rw [accessWithin_iff hpos]
  show elemOffset (bits - 1) + 8 ≤ 8 <<< i - bitmapHeader
  rw [Nat.shiftLeft_eq] at *
  unfold elemOffset bitToElem elemBits bitmapHeader bitmapBufsize at *
  omega

/-- **The words are in their buffers** exactly for the bit counts that end in the last byte of a word; for the bitmaps of the
pools they always are. -/
theorem bitmap_words_iff {n : ℕ} (hn : 0 < n) (h : n < 2 ^ 64) :
    (CreateWithin n h ∧ PoolWithin n h ↔ n + 7 < 2 ^ 64 ∧ (n % 64 = 0 ∨ 57 ≤ n % 64)) ∧ PoolWithin n h := by
  refine ⟨?_, pool_within n h⟩
  rw [createWithin_iff hn h]
  exact and_iff_left (pool_within n h)

theorem bitmap_words_iff_word : CreateWithin 64 (by decide) :=
  ((bitmap_words_iff (by decide) _).1.mpr (by decide)).1

/-- **A bitmap for ten bits** has two bytes, and `bitmap_set` writes eight. -/
theorem bitmap_words_ten : (bitmapCreate 10 (by decide) fun _ => 0).bufsize = 2 ∧
    BitmapCall.words 11 (bitmapCreate 10 (by decide) fun _ => 0) (.set 0 1 true) = some [0] ∧
    ¬ ∀ (n : ℕ) (h : n < 2 ^ 64), 0 < n → CreateWithin n h ∧ PoolWithin n h := by
  refine ⟨by decide, by decide, fun hall => ?_⟩
  have hten := (createWithin_iff (by decide) _).mp (hall 10 (by decide) (by decide)).1
  exact absurd hten.2 (by decide)

end Dunkos
