import Dunkos.Directory
import Dunkos.Lib.Loop

/-! # `memset` and `strncmp` (`shared/string.c`)

Memory is a byte at every address, and addresses wrap.  `memset` writes single bytes as long as the number of bytes
that are left is no multiple of eight, and words from there on.  The test of the loop of bytes counts one down before it
looks, and so does the test that ends the loop: the byte that it counted is never written.  `memset_right_iff` says
what is left of the claim of the name.

`strncmp` returns what is left of `count` when a string ends, and compares characters as they come: `strncmp_right_iff`
says where that is the order of the strings. -/

namespace Dunkos

open Function Loop

/-! ### `memset` -/

abbrev ByteMem := BitVec 64 → Byte

/-- The memory, and the variables `ptr` (or `wptr`) and `len`. -/
structure FillState where
  mem : ByteMem
  ptr : BitVec 64
  len : BitVec 64

/-- `*ptr++ = val`, where the test has counted `len` down. -/
def putByte (val : Byte) (s : FillState) : FillState := ⟨update s.mem s.ptr val, s.ptr + 1, s.len - 1⟩

/-- `while (len-- > 0 && len % sizeof(size_t) > 0)`; the test that fails counts down too. -/
def byteLoop (fuel : ℕ) (val : Byte) (s : FillState) : Option FillState :=
  (runWhile (fun s => decide (0 < s.len ∧ 0 < (s.len - 1) % 8)) (fun s => some (putByte val s)) fuel s).map
    fun s => { s with len := s.len - 1 }

/-- The bytes `data` from `p` on. -/
def storeBytes (m : ByteMem) (p : BitVec 64) : List Byte → ByteMem
  | [] => m
  | c :: data => storeBytes (update m p c) (p + 1) data

/-- `*wptr++ = wval.val; len -= sizeof *wptr`, where all of `wval.data` is `val`. -/
def putWord (val : Byte) (s : FillState) : FillState :=
  ⟨storeBytes s.mem s.ptr (List.replicate 8 val), s.ptr + 8, s.len - 8⟩

def wordLoop (fuel : ℕ) (val : Byte) (s : FillState) : Option FillState :=
  runWhile (fun s => decide (0 < s.len)) (fun s => some (putWord val s)) fuel s

/-- The memory behind `memset`; `none` when `fuel` rounds are not enough for one of the loops. -/
def memset (fuel : ℕ) (m : ByteMem) (dest : BitVec 64) (val : BitVec 32) (len : BitVec 64) : Option ByteMem :=
  let s : FillState := ⟨m, dest, len⟩
  ((if 0 < len % 8 then byteLoop fuel (val.setWidth 8) s else some s).bind
    (wordLoop fuel (val.setWidth 8))).map FillState.mem

/-! ### What `memset` writes -/

/-- `m` with the first `n` bytes from `dest` on set to `c`. -/
def fill (m : ByteMem) (dest : BitVec 64) (n : ℕ) (c : Byte) : ByteMem :=
  fun a => if (a - dest).toNat < n then c else m a

theorem fill_zero (m : ByteMem) (dest : BitVec 64) (c : Byte) : fill m dest 0 c = m := by
  funext a
  exact if_neg (Nat.not_lt_zero _)

theorem fill_succ (m : ByteMem) (dest : BitVec 64) (c : Byte) {n : ℕ} (hn : n < 2 ^ 64) :
    update (fill m dest n c) (dest + BitVec.ofNat 64 n) c = fill m dest (n + 1) c := by
  funext a
  unfold fill
  by_cases ha : a = dest + BitVec.ofNat 64 n
  · have hlt : (dest + BitVec.ofNat 64 n - dest).toNat < n + 1 := by bv_omega
    rw [ha, update_self, if_pos hlt]
  · have hne : (a - dest).toNat ≠ n := by
      intro he
      apply ha
      bv_omega
    rw [update_of_ne ha]
    exact if_congr (by omega) rfl rfl

theorem storeBytes_fill (m : ByteMem) (dest : BitVec 64) (c : Byte) {n k : ℕ} (hn : n + k ≤ 2 ^ 64) :
    storeBytes (fill m dest n c) (dest + BitVec.ofNat 64 n) (List.replicate k c) = fill m dest (n + k) c := by
  induction k generalizing n with
  | zero => rfl
  | succ k ih =>
      have hnext : dest + BitVec.ofNat 64 n + 1 = dest + BitVec.ofNat 64 (n + 1) := by bv_omega
      rw [List.replicate_succ, storeBytes, fill_succ m dest c (by omega), hnext, ih (by omega)]
      congr 1
      omega

/-- The first `n` bytes are set, and `left` bytes are still to be counted. -/
structure Filling (m : ByteMem) (dest : BitVec 64) (c : Byte) (n left : ℕ) (s : FillState) : Prop where
  mem : s.mem = fill m dest n c
  ptr : s.ptr = dest + BitVec.ofNat 64 n
  len : s.len.toNat = left

section
variable {m : ByteMem} {dest : BitVec 64} {c : Byte} {n left fuel : ℕ} {s : FillState}

theorem Filling.putByte (h : Filling m dest c n (left + 1) s) (hn : n + left < 2 ^ 64) :
    Filling m dest c (n + 1) left (putByte c s) where
  mem := by
    show update s.mem s.ptr c = _
    rw [h.mem, h.ptr, fill_succ m dest c (by omega)]
  ptr := by
    show s.ptr + 1 = _
    rw [h.ptr]
    bv_omega
  len := by
    have hlen := h.len
    show (s.len - 1).toNat = left
    bv_omega

theorem Filling.putWord (h : Filling m dest c n (left + 8) s) (hn : n + (left + 8) < 2 ^ 64) :
    Filling m dest c (n + 8) left (putWord c s) where
  mem := by
    show storeBytes s.mem s.ptr _ = _
    rw [h.mem, h.ptr, storeBytes_fill m dest c (by omega)]
  ptr := by
    show s.ptr + 8 = _
    rw [h.ptr]
    bv_omega
  len := by
    have hlen := h.len
    show (s.len - 8).toNat = left
    bv_omega

theorem rest_pos_iff {x : BitVec 64} (hx : 0 < x.toNat) : 0 < (x - 1) % 8 ↔ (x.toNat - 1) % 8 ≠ 0 := by
  have hsub : (x - 1).toNat = x.toNat - 1 := by bv_omega
  show 0 < ((x - 1) % 8).toNat ↔ _
  rw [BitVec.toNat_umod, hsub]
  exact Nat.pos_iff_ne_zero

/-- From a number that is no multiple of eight on, the loop of bytes stops one byte short of one. -/
theorem Filling.byteLoop (h : Filling m dest c 0 left s) (hleft : left % 8 ≠ 0) (hf : left ≤ fuel) :
    ∃ s', byteLoop fuel c s = some s' ∧ Filling m dest c (left % 8 - 1) (left / 8 * 8) s' := by
  have hlt := s.len.isLt
  have hlen := h.len
  have hloop : ∃ s', runWhile (fun s => decide (0 < s.len ∧ 0 < (s.len - 1) % 8))
      (fun s => some (Dunkos.putByte c s)) fuel s = some s' ∧
        (∃ n, n < left % 8 ∧ Filling m dest c n (left - n) s') ∧ _ :=
    runWhile_total (v := fun s => s.len.toNat) (fun s hI hgo => by
      obtain ⟨n, hn, hI⟩ := hI
      obtain ⟨hpos, hmod⟩ := of_decide_eq_true hgo
      have hlen' := hI.len
      rw [rest_pos_iff hpos, hlen'] at hmod
      have hmore : n + 1 < left % 8 := by omega
      have hsucc : left - n = left - (n + 1) + 1 := by omega
      rw [hsucc] at hI hlen'
      have hput := hI.putByte (by omega)
      refine ⟨_, rfl, ⟨n + 1, hmore, hput⟩, ?_⟩
      rw [hput.len, hlen']
      exact Nat.lt_succ_self _) (hlen ▸ hf) ⟨0, Nat.pos_of_ne_zero hleft, h⟩
  obtain ⟨s', hs', ⟨n, hn, hI⟩, hstop⟩ := hloop
  have hlen' := hI.len
  have hend : n = left % 8 - 1 := by
    have hno := of_decide_eq_false hstop
    have hpos : 0 < s'.len.toNat := by omega
    by_contra hne
    apply hno
    rw [rest_pos_iff hpos, hlen']
    exact ⟨hpos, by omega⟩
  refine ⟨{ s' with len := s'.len - 1 }, ?_, hend ▸ hI.mem, hend ▸ hI.ptr, ?_⟩
  · unfold Dunkos.byteLoop
    rw [hs', Option.map_some]
  · show (s'.len - 1).toNat = _
    bv_omega

/-- The loop of words sets what is left of a multiple of eight. -/
theorem Filling.wordLoop (h : Filling m dest c n left s) (hleft : left % 8 = 0) (hn : n + left < 2 ^ 64)
    (hf : left ≤ fuel) : ∃ s', wordLoop fuel c s = some s' ∧ Filling m dest c (n + left) 0 s' := by
  have hloop : ∃ s', Dunkos.wordLoop fuel c s = some s' ∧
      (∃ k, k % 8 = 0 ∧ k ≤ left ∧ Filling m dest c (n + k) (left - k) s') ∧ _ :=
    runWhile_total (v := fun s => s.len.toNat) (fun s hI hgo => by
      obtain ⟨k, hk, hle, hI⟩ := hI
      have hpos : 0 < s.len.toNat := of_decide_eq_true hgo
      have hlen := hI.len
      have hsub : left - k = left - (k + 8) + 8 := by omega
      rw [hsub] at hI hlen
      have hput := hI.putWord (by omega)
      refine ⟨_, rfl, ⟨k + 8, by omega, by omega, hput⟩, ?_⟩
      rw [hput.len, hlen]
      omega) (h.len ▸ hf) ⟨0, rfl, Nat.zero_le _, h⟩
  obtain ⟨s', hs', ⟨k, -, hle, hI⟩, hstop⟩ := hloop
  have hzero : ¬ 0 < s'.len.toNat := of_decide_eq_false hstop
  have hlen := hI.len
  obtain rfl : k = left := by omega
  rw [Nat.sub_self] at hI
  exact ⟨s', hs', hI⟩

end

/-- **What `memset` does**: it ends, and sets all bytes when their number is a multiple of eight, and all but the last
one when it is not. -/
theorem memset_eq_fill (m : ByteMem) (dest : BitVec 64) (val : BitVec 32) (len : BitVec 64) {fuel : ℕ}
    (hf : len.toNat ≤ fuel) : memset fuel m dest val len =
      some (fill m dest (if len.toNat % 8 = 0 then len.toNat else len.toNat - 1) (val.setWidth 8)) := by
  have hlt := len.isLt
  have hstart : Filling m dest (val.setWidth 8) 0 len.toNat ⟨m, dest, len⟩ :=
    ⟨(fill_zero m dest _).symm, (BitVec.add_zero dest).symm, rfl⟩
  have hmod : (len % 8).toNat = len.toNat % 8 := BitVec.toNat_umod
  unfold memset
  dsimp only
  by_cases h : len.toNat % 8 = 0
  · obtain ⟨s, hs, hfill⟩ := hstart.wordLoop h (by omega) hf
    have hno : ¬ 0 < len % 8 := by
      show ¬ 0 < (len % 8).toNat
      omega
    rw [if_neg hno, if_pos h, Option.bind_some, hs, Option.map_some, hfill.mem, Nat.zero_add]
  · obtain ⟨s, hs, hfill⟩ := hstart.byteLoop h hf
    obtain ⟨s', hs', hfill'⟩ := hfill.wordLoop (by omega) (by omega) (by omega : _ ≤ fuel)
    have hyes : 0 < len % 8 := by
      show 0 < (len % 8).toNat
      omega
    have hsum : len.toNat % 8 - 1 + len.toNat / 8 * 8 = len.toNat - 1 := by omega
    rw [if_pos hyes, if_neg h, hs, Option.bind_some, hs', Option.map_some, hfill'.mem, hsum]

/-- `a` is one of the `len` bytes that start at `dest`. -/
def InRange (dest len a : BitVec 64) : Prop := (a - dest).toNat < len.toNat

/-- **What `memset` is right about**: it always ends, and writes no byte outside of its range; the bytes in the range are
set exactly when their number is a multiple of eight or the last one has the value already. -/
theorem memset_right_iff (m : ByteMem) (dest : BitVec 64) (val : BitVec 32) (len : BitVec 64) : ∃ m',
    (∀ fuel, len.toNat ≤ fuel → memset fuel m dest val len = some m') ∧
      (∀ a, ¬ InRange dest len a → m' a = m a) ∧
      ((∀ a, InRange dest len a → m' a = val.setWidth 8) ↔
        len.toNat % 8 = 0 ∨ m (dest + (len - 1)) = val.setWidth 8) := by
  refine ⟨_, fun fuel hf => memset_eq_fill m dest val len hf, fun a ha => ?_, ?_⟩
  · unfold InRange at ha
    refine if_neg ?_
    split_ifs <;> omega
  · by_cases h : len.toNat % 8 = 0
    · rw [if_pos h]
      exact iff_of_true (fun a ha => if_pos ha) (.inl h)
    · rw [if_neg h, or_iff_right h]
      have hlast : (dest + (len - 1) - dest).toNat = len.toNat - 1 := by bv_omega
      constructor
      · intro hall
        rw [← hall (dest + (len - 1)) (by unfold InRange; omega)]
        refine (if_neg ?_).symm
        omega
      · intro hm a ha
        unfold InRange at ha
        by_cases hend : (a - dest).toNat < len.toNat - 1
        · exact if_pos hend
        · have he : a = dest + (len - 1) := by bv_omega
          rw [he]
          exact (if_neg (by omega)).trans hm

/-- **One byte, to be cleared**: nothing is written. -/
theorem memset_one_byte : ∃ m', memset 1 (fun _ => 1) 0x1000 0 1 = some m' ∧ InRange 0x1000 1 0x1000 ∧
    m' 0x1000 = 1 := by
  refine ⟨_, memset_eq_fill _ _ _ _ (by decide), by unfold InRange; decide, ?_⟩
  decide

/-! ### `strncmp` -/

/-- The strings are the same for `count` characters, or up to a terminator before that. -/
def AgreeTo (left right : ℕ → Byte) (count : ℕ) : Prop :=
  (∀ j < count, left j = right j) ∨ ∃ k < count, left k = 0 ∧ ∀ j ≤ k, left j = right j

/-- Before `k` the strings are the same and do not end. -/
def SameBefore (left right : ℕ → Byte) (k : ℕ) : Prop := ∀ j < k, left j = right j ∧ left j ≠ 0

/-- `strncmp` compares the way its name says, and the other way round when the strings are swapped. -/
structure StrncmpRight (left right : ℕ → Byte) (count : ℕ) : Prop where
  zero_iff : strncmp left right count = 0 ↔ AgreeTo left right count
  less : ∀ k < count, SameBefore left right k → (left k).toNat < (right k).toNat → strncmp left right count < 0
  greater : ∀ k < count, SameBefore left right k → (right k).toNat < (left k).toNat → 0 < strncmp left right count
  swap : (strncmp left right count < 0 ↔ 0 < strncmp right left count) ∧
    (0 < strncmp left right count ↔ strncmp right left count < 0)

/-- At the place `k`, where the strings differ or end: both end, and `count` has a multiple of `2 ^ 32` left; or neither
ends, and both characters are positive or both negative. -/
def ComparesRight (left right : ℕ → Byte) (count k : ℕ) : Prop :=
  left k = 0 ∧ right k = 0 ∧ (count - k) % 2 ^ 32 = 0 ∨
    left k ≠ 0 ∧ right k ≠ 0 ∧ ((left k).toNat < 128 ↔ (right k).toNat < 128)

section
variable {left right : ℕ → Byte} {count k : ℕ}

theorem SameBefore.swap (h : SameBefore left right k) : SameBefore right left k := by
  intro j hj
  obtain ⟨heq, hne⟩ := h j hj
  exact ⟨heq.symm, heq ▸ hne⟩

theorem SameBefore.loop (h : SameBefore left right k) (hk : k ≤ count) :
    strncmpLoop left right 0 0 count = strncmpLoop left right 0 k (count - k) := by
  induction k with
  | zero => rfl
  | succ k ih =>
      obtain ⟨heq, hne⟩ := h k (Nat.lt_succ_self k)
      have hleft : count - k = count - (k + 1) + 1 := by omega
      rw [ih (fun j hj => h j (Nat.lt_succ_of_lt hj)) (Nat.le_of_succ_le hk), hleft, strncmpLoop,
        if_pos ⟨rfl, hne, heq ▸ hne⟩, heq, Int.sub_self]

/-- Strings without a difference. -/
theorem SameBefore.strncmp_eq (h : SameBefore left right count) : strncmp left right count = 0 := by
  unfold strncmp
  rw [h.loop (Nat.le_refl _), Nat.sub_self]
  rfl

/-- Where a string ends, the result is what is left of `count`. -/
theorem SameBefore.strncmp_end (h : SameBefore left right k) (hk : k < count) (hend : left k = 0 ∨ right k = 0) :
    strncmp left right count = (BitVec.ofNat 32 (count - k)).toInt := by
  obtain ⟨n, hn⟩ : ∃ n, count - k = n + 1 := ⟨count - k - 1, by omega⟩
  unfold strncmp
  rw [h.loop hk.le, hn, strncmpLoop, if_neg]
  · rfl
  · rintro ⟨-, h₁, h₂⟩
    rcases hend with hend | hend
    · exact h₁ hend
    · exact h₂ hend

/-- Characters that differ are compared as signed ones. -/
theorem SameBefore.strncmp_differ (h : SameBefore left right k) (hk : k < count) (h₁ : left k ≠ 0) (h₂ : right k ≠ 0)
    (hne : left k ≠ right k) : strncmp left right count = (left k).toInt - (right k).toInt := by
  have hcmp : (left k).toInt - (right k).toInt ≠ 0 := fun h₀ => hne (BitVec.eq_of_toInt_eq (by omega))
  obtain ⟨n, hn⟩ : ∃ n, count - k = n + 1 := ⟨count - k - 1, by omega⟩
  unfold strncmp
  rw [h.loop hk.le, hn, strncmpLoop, if_pos ⟨rfl, h₁, h₂⟩]
  have hfst := strncmpLoop_of_ne left right hcmp (k + 1) n
  generalize strncmpLoop left right _ (k + 1) n = r at hfst
  dsimp only
  rw [if_pos (hfst ▸ hcmp), hfst]

/-- Two strings are the same, or there is a first place where they differ or end. -/
theorem sameBefore_or_stop (left right : ℕ → Byte) (count : ℕ) : SameBefore left right count ∨
    ∃ k < count, SameBefore left right k ∧ (left k ≠ right k ∨ left k = 0) := by
  induction count with
  | zero => exact .inl fun j hj => absurd hj (Nat.not_lt_zero j)
  | succ count ih =>
      rcases ih with h | ⟨k, hk, h⟩
      · by_cases hstop : left count ≠ right count ∨ left count = 0
        · exact .inr ⟨count, Nat.lt_succ_self _, h, hstop⟩
        · rw [not_or, not_not] at hstop
          refine .inl fun j hj => ?_
          rcases Nat.lt_succ_iff_lt_or_eq.mp hj with hj | rfl
          · exact h j hj
          · exact hstop
      · exact .inr ⟨k, Nat.lt_succ_of_lt hk, h⟩

/-- There is one such place only. -/
theorem SameBefore.eq_stop (h : SameBefore left right k) (hs : left k ≠ right k ∨ left k = 0) {l : ℕ}
    (h' : SameBefore left right l) (hs' : left l ≠ right l ∨ left l = 0) : l = k := by
  have hstop : ∀ {a b : ℕ}, SameBefore left right b → (left a ≠ right a ∨ left a = 0) → ¬ a < b := by
    intro a b hb ha hab
    obtain ⟨heq, hne⟩ := hb a hab
    rcases ha with ha | ha
    · exact ha heq
    · exact hne ha
  exact Nat.le_antisymm (Nat.le_of_not_lt (hstop h' hs)) (Nat.le_of_not_lt (hstop h hs'))

theorem SameBefore.not_agreeTo (h : SameBefore left right k) (hk : k < count) (hne : left k ≠ right k) :
    ¬ AgreeTo left right count := by
  rintro (hall | ⟨l, -, hend, hall⟩)
  · exact hne (hall k hk)
  · rcases Nat.lt_or_ge l k with hl | hl
    · exact (h l hl).2 hend
    · exact hne (hall k hl)

end

theorem ofNat32_toInt_eq_zero_iff (n : ℕ) : (BitVec.ofNat 32 n).toInt = 0 ↔ n % 2 ^ 32 = 0 := by
  have hlt := (BitVec.ofNat 32 n).isLt
  rw [BitVec.toInt_eq_toNat_cond, BitVec.toNat_ofNat]
  split_ifs <;> omega

/-- Characters in the order of their codes are in that order as signed ones, when they are on the same side. -/
theorem toInt_lt_iff {x y : Byte} (h : x.toNat < 128 ↔ y.toNat < 128) : x.toInt < y.toInt ↔ x.toNat < y.toNat := by
  have hx := x.isLt
  have hy := y.isLt
  rw [BitVec.toInt_eq_toNat_cond, BitVec.toInt_eq_toNat_cond]
  split_ifs <;> omega

section
variable {left right : ℕ → Byte} {count k : ℕ}

/-- What the claim asks for at the place where the strings differ or end. -/
theorem StrncmpRight.compares (h : StrncmpRight left right count) (hk : k < count) (hsame : SameBefore left right k)
    (hstop : left k ≠ right k ∨ left k = 0) : ComparesRight left right count k := by
  by_cases hl : left k = 0
  · by_cases hr : right k = 0
    · have hagree : AgreeTo left right count := by
        refine .inr ⟨k, hk, hl, fun j hj => ?_⟩
        rcases Nat.lt_or_eq_of_le hj with hj | rfl
        · exact (hsame j hj).1
        · rw [hl, hr]
      have hzero := h.zero_iff.mpr hagree
      rw [hsame.strncmp_end hk (.inl hl), ofNat32_toInt_eq_zero_iff] at hzero
      exact .inl ⟨hl, hr, hzero⟩
    · -- one string ends: what is left is the result both ways
      have hswap := h.swap.1
      rw [hsame.strncmp_end hk (.inl hl), hsame.swap.strncmp_end hk (.inr hl)] at hswap
      have hne : left k ≠ right k := fun he => hr (he ▸ hl)
      refine absurd (h.zero_iff.mp ?_) (hsame.not_agreeTo hk hne)
      rw [hsame.strncmp_end hk (.inl hl)]
      omega
  · have hne : left k ≠ right k := hstop.resolve_right hl
    by_cases hr : right k = 0
    · have hswap := h.swap.1
      rw [hsame.strncmp_end hk (.inr hr), hsame.swap.strncmp_end hk (.inl hr)] at hswap
      refine absurd (h.zero_iff.mp ?_) (hsame.not_agreeTo hk hne)
      rw [hsame.strncmp_end hk (.inr hr)]
      omega
    · refine .inr ⟨hl, hr, ?_⟩
      have hcmp := hsame.strncmp_differ hk hl hr hne
      have hless := h.less k hk hsame
      have hgreater := h.greater k hk hsame
      have hnat : (left k).toNat ≠ (right k).toNat := fun he => hne (BitVec.eq_of_toNat_eq he)
      have hx := (left k).isLt
      have hy := (right k).isLt
      rw [hcmp, BitVec.toInt_eq_toNat_cond, BitVec.toInt_eq_toNat_cond] at hless hgreater
      split_ifs at hless hgreater <;> omega

/-- Strings that are the same as far as `count` goes. -/
theorem SameBefore.strncmpRight (h : SameBefore left right count) : StrncmpRight left right count where
  zero_iff := iff_of_true h.strncmp_eq (.inl fun j hj => (h j hj).1)
  less k hk _ hlt := by
    rw [(h k hk).1] at hlt
    exact absurd hlt (Nat.lt_irrefl _)
  greater k hk _ hlt := by
    rw [(h k hk).1] at hlt
    exact absurd hlt (Nat.lt_irrefl _)
  swap := by
    rw [h.strncmp_eq, h.swap.strncmp_eq]
    exact ⟨Iff.rfl, Iff.rfl⟩

theorem ComparesRight.strncmpRight (h : ComparesRight left right count k) (hk : k < count)
    (hsame : SameBefore left right k) (hstop : left k ≠ right k ∨ left k = 0) : StrncmpRight left right count := by
  have heq : ∀ l, SameBefore left right l → left l ≠ right l → l = k :=
    fun l hl hne => hsame.eq_stop hstop hl (.inl hne)
  rcases h with ⟨hl, hr, hmod⟩ | ⟨hl, hr, hside⟩
  · have hzero : strncmp left right count = 0 := by
      rw [hsame.strncmp_end hk (.inl hl), ofNat32_toInt_eq_zero_iff, hmod]
    have hzero' : strncmp right left count = 0 := by
      rw [hsame.swap.strncmp_end hk (.inl hr), ofNat32_toInt_eq_zero_iff, hmod]
    refine ⟨iff_of_true hzero (.inr ⟨k, hk, hl, fun j hj => ?_⟩), fun l _ hs hlt => ?_, fun l _ hs hlt => ?_, ?_⟩
    · rcases Nat.lt_or_eq_of_le hj with hj | rfl
      · exact (hsame j hj).1
      · rw [hl, hr]
    · obtain rfl := heq l hs fun he => by rw [he] at hlt; exact Nat.lt_irrefl _ hlt
      rw [hl, hr] at hlt
      exact absurd hlt (Nat.lt_irrefl _)
    · obtain rfl := heq l hs fun he => by rw [he] at hlt; exact Nat.lt_irrefl _ hlt
      rw [hl, hr] at hlt
      exact absurd hlt (Nat.lt_irrefl _)
    · rw [hzero, hzero']
      exact ⟨Iff.rfl, Iff.rfl⟩
  · have hne : left k ≠ right k := hstop.resolve_right hl
    have hcmp := hsame.strncmp_differ hk hl hr hne
    have hcmp' := hsame.swap.strncmp_differ hk hr hl (Ne.symm hne)
    have hint : (left k).toInt ≠ (right k).toInt := fun he => hne (BitVec.eq_of_toInt_eq he)
    have hlt := toInt_lt_iff hside
    have hgt := toInt_lt_iff hside.symm
    refine ⟨iff_of_false (by omega) (hsame.not_agreeTo hk hne), fun l _ hs hl => ?_, fun l _ hs hl => ?_, ?_⟩
    · obtain rfl := heq l hs fun he => by rw [he] at hl; exact Nat.lt_irrefl _ hl
      omega
    · obtain rfl := heq l hs fun he => by rw [he] at hl; exact Nat.lt_irrefl _ hl
      omega
    · rw [hcmp, hcmp']
      constructor <;> omega

/-- **Where `strncmp` is right**: at the first place where the strings differ or end, both end and a multiple of
`2 ^ 32` characters is left, or neither ends and the characters have the same sign; or there is no such place before
`count`. -/
theorem strncmp_right_iff (left right : ℕ → Byte) (count : ℕ) : StrncmpRight left right count ↔
    ∀ k < count, SameBefore left right k → left k ≠ right k ∨ left k = 0 → ComparesRight left right count k := by
  constructor
  · intro h k hk hsame hstop
    exact h.compares hk hsame hstop
  · intro h
    rcases sameBefore_or_stop left right count with hsame | ⟨k, hk, hsame, hstop⟩
    · exact hsame.strncmpRight
    · exact (h k hk hsame hstop).strncmpRight hk hsame hstop

end

/-- `"a"`. -/
def stringA (i : ℕ) : Byte := if i = 0 then 97 else 0

/-- **A string is not equal to itself**: of two characters to be compared one is left at its end. -/
theorem strncmp_self_ne : strncmp stringA stringA 2 = 1 ∧ AgreeTo stringA stringA 2 :=
  ⟨by decide, .inl fun _ _ => rfl⟩

end Dunkos
