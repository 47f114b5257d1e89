import Dunkos.StringLib

/-! # Overlapping copies (`memcpy` of `shared/string.c`)

`memcpy` goes up byte by byte.  Where the destination begins inside of the source it comes to bytes that it has written
itself, so that the first ones are repeated; a destination that begins before the source is not read again, also where
the ranges wrap.  `memcpy_right_iff` says what is in memory behind it, and for which contents that is the copy. -/

namespace Dunkos

open Function Loop

namespace ByteMem

/-- The memory, and the variables `pdest`, `psrc` and `n`. -/
structure CopyState where
  mem : ByteMem
  pdest : BitVec 64
  psrc : BitVec 64
  n : BitVec 64

/-- `*pdest++ = *psrc++`, where the test has counted `n` down. -/
def copyByte (s : CopyState) : CopyState := ⟨update s.mem s.pdest (s.mem s.psrc), s.pdest + 1, s.psrc + 1, s.n - 1⟩

/-- The memory behind `memcpy`; `none` when `fuel` rounds are not enough. -/
def memcpy (fuel : ℕ) (m : ByteMem) (dest src n : BitVec 64) : Option ByteMem :=
  (runWhile (fun s => decide (0 < s.n)) (fun s => some (copyByte s)) fuel ⟨m, dest, src, n⟩).map CopyState.mem

/-- The copy: the bytes of the source as they were, and the rest of the memory. -/
def Copy (m m' : ByteMem) (dest src : BitVec 64) (n : ℕ) : Prop :=
  ∀ a, m' a = if (a - dest).toNat < n then m (src + (a - dest)) else m a

/-- The first `n` bytes of the source repeat those that stand before the destination. -/
def Repeats (m : ByteMem) (dest src : BitVec 64) (n : ℕ) : Prop :=
  ∀ i, (dest - src).toNat ≤ i → i < n →
    m (src + BitVec.ofNat 64 i) = m (src + BitVec.ofNat 64 (i - (dest - src).toNat))

/-! ### What `memcpy` writes -/

/-- `m` behind `n` rounds. -/
def copied (m : ByteMem) (dest src : BitVec 64) (n : ℕ) : ByteMem := fun a =>
  if (a - dest).toNat < n then m (src + BitVec.ofNat 64 ((a - dest).toNat % (dest - src).toNat)) else m a

variable {m : ByteMem} {dest src : BitVec 64} {n : ℕ}

theorem copied_zero (m : ByteMem) (dest src : BitVec 64) : copied m dest src 0 = m := by
  funext a
  exact if_neg (Nat.not_lt_zero _)

/-- The next byte that is read. -/
theorem copied_source (m : ByteMem) (dest src : BitVec 64) (hn : n < 2 ^ 64) :
    copied m dest src n (src + BitVec.ofNat 64 n) = m (src + BitVec.ofNat 64 (n % (dest - src).toNat)) := by
  unfold copied
  rcases Nat.lt_or_ge n (dest - src).toNat with hlt | hge
  · have hout : ¬ (src + BitVec.ofNat 64 n - dest).toNat < n := by bv_omega
    rw [if_neg hout, Nat.mod_eq_of_lt hlt]
  · have hback : (src + BitVec.ofNat 64 n - dest).toNat = n - (dest - src).toNat := by bv_omega
    rw [hback]
    by_cases hsame : (dest - src).toNat = 0
    · rw [hsame, Nat.sub_zero, if_neg (Nat.lt_irrefl n), Nat.mod_zero]
    · rw [if_pos (by omega), ← Nat.mod_eq_sub_mod hge]

theorem copied_succ (m : ByteMem) (dest src : BitVec 64) (hn : n < 2 ^ 64) :
    update (copied m dest src n) (dest + BitVec.ofNat 64 n) (m (src + BitVec.ofNat 64 (n % (dest - src).toNat))) =
      copied m dest src (n + 1) := by
  funext a
  by_cases ha : a = dest + BitVec.ofNat 64 n
  · have hdist : (a - dest).toNat = n := by
      rw [ha]
      bv_omega
    unfold copied
    rw [hdist, if_pos (Nat.lt_succ_self n), ha, update_self]
  · have hne : (a - dest).toNat ≠ n := by
      intro he
      apply ha
      bv_omega
    rw [update_of_ne ha]
    unfold copied
    exact if_congr (by omega) rfl rfl

/-- Behind `k` rounds, with `left` to come. -/
structure Copying (m : ByteMem) (dest src : BitVec 64) (k left : ℕ) (s : CopyState) : Prop where
  mem : s.mem = copied m dest src k
  pdest : s.pdest = dest + BitVec.ofNat 64 k
  psrc : s.psrc = src + BitVec.ofNat 64 k
  n : s.n.toNat = left

theorem Copying.copyByte {k left : ℕ} {s : CopyState} (h : Copying m dest src k (left + 1) s) (hk : k < 2 ^ 64) :
    Copying m dest src (k + 1) left (copyByte s) where
  mem := by
    show update s.mem s.pdest (s.mem s.psrc) = _
    rw [h.mem, h.pdest, h.psrc, copied_source m dest src hk, copied_succ m dest src hk]
  pdest := by
    show s.pdest + 1 = _
    rw [h.pdest]
    bv_omega
  psrc := by
    show s.psrc + 1 = _
    rw [h.psrc]
    bv_omega
  n := by
    have hn := h.n
    show (s.n - 1).toNat = left
    bv_omega

theorem memcpy_eq (m : ByteMem) (dest src n : BitVec 64) :
    memcpy n.toNat m dest src n = some (copied m dest src n.toNat) := by
  have hloop : ∃ s', runWhile (fun s => decide (0 < s.n)) (fun s => some (copyByte s)) n.toNat ⟨m, dest, src, n⟩ = some s' ∧
      (∃ k left, k + left = n.toNat ∧ Copying m dest src k left s') ∧ decide (0 < s'.n) = false :=
    runWhile_total (v := fun s => s.n.toNat) (fun s hI hgo => by
      obtain ⟨k, left, hkl, h⟩ := hI
      have hpos : 0 < s.n.toNat := by simpa [BitVec.lt_def] using hgo
      obtain ⟨left, rfl⟩ : ∃ l, left = l + 1 := ⟨left - 1, by have := h.n; omega⟩
      have hnext := h.copyByte (by omega)
      refine ⟨copyByte s, rfl, ⟨k + 1, left, by omega, hnext⟩, ?_⟩
      rw [hnext.n, h.n]
      exact Nat.lt_succ_self left)
      (Nat.le_refl _) ⟨0, n.toNat, Nat.zero_add _, (copied_zero m dest src).symm, by simp, by simp, rfl⟩
  obtain ⟨s, hs, ⟨k, left, hkl, h⟩, hstop⟩ := hloop
  have hleft : left = 0 := by
    have hn : ¬ 0 < s.n.toNat := by simpa [BitVec.lt_def] using hstop
    have := h.n
    omega
  unfold memcpy
  rw [hs, Option.map_some, h.mem]
  congr 2
  omega

/-! ### When that is the copy -/

theorem copied_apply {i : ℕ} (hi : i < n) (hn : n ≤ 2 ^ 64) : copied m dest src n (dest + BitVec.ofNat 64 i) =
    m (src + BitVec.ofNat 64 (i % (dest - src).toNat)) := by
  have hdist : (dest + BitVec.ofNat 64 i - dest).toNat = i := by bv_omega
  unfold copied
  rw [hdist, if_pos hi]

/-- A source that repeats is the same at both ends of every period. -/
theorem Repeats.mod (h : Repeats m dest src n) {i : ℕ} (hi : i < n) :
    m (src + BitVec.ofNat 64 (i % (dest - src).toNat)) = m (src + BitVec.ofNat 64 i) := by
  induction i using Nat.strong_induction_on with
  | _ i ih =>
      rcases Nat.lt_or_ge i (dest - src).toNat with hlt | hge
      · rw [Nat.mod_eq_of_lt hlt]
      · by_cases hsame : (dest - src).toNat = 0
        · rw [hsame, Nat.mod_zero]
        · rw [Nat.mod_eq_sub_mod hge, ih _ (by omega) (by omega), h i hge hi]

theorem copy_copied_iff (m : ByteMem) (dest src : BitVec 64) (hn : n ≤ 2 ^ 64) :
    Copy m (copied m dest src n) dest src n ↔ Repeats m dest src n := by
  have hback (a : BitVec 64) : BitVec.ofNat 64 (a - dest).toNat = a - dest := BitVec.eq_of_toNat_eq (by bv_omega)
  constructor
  · intro h i hge hi
    have hat : ∀ j < n, m (src + BitVec.ofNat 64 (j % (dest - src).toNat)) = m (src + BitVec.ofNat 64 j) := by
      intro j hj
      have hdist : (dest + BitVec.ofNat 64 j - dest).toNat = j := by bv_omega
      have hcopy := h (dest + BitVec.ofNat 64 j)
      rw [copied_apply hj hn, hdist, if_pos hj] at hcopy
      rw [hcopy]
      congr 2
      bv_omega
    refine (hat i hi).symm.trans ?_
    rw [Nat.mod_eq_sub_mod hge]
    exact hat _ (by omega)
  · intro h a
    unfold copied
    split_ifs with ha
    · rw [h.mod ha, hback]
    · rfl

end ByteMem

/-- **What `memcpy` leaves in memory**, for all ranges: the bytes of the source before the destination, over and over.  It
is the copy exactly for the sources that repeat them anyway. -/
theorem memcpy_right_iff (m : ByteMem) (dest src n : BitVec 64) : ∃ m', ByteMem.memcpy n.toNat m dest src n = some m' ∧
    (∀ i < n.toNat, m' (dest + BitVec.ofNat 64 i) = m (src + BitVec.ofNat 64 (i % (dest - src).toNat))) ∧
    (∀ a, n.toNat ≤ (a - dest).toNat → m' a = m a) ∧
    (ByteMem.Copy m m' dest src n.toNat ↔ ByteMem.Repeats m dest src n.toNat) :=
  ⟨_, ByteMem.memcpy_eq m dest src n, fun _ hi => ByteMem.copied_apply hi (Nat.le_of_lt n.isLt),
    fun _ ha => if_neg (Nat.not_lt.mpr ha), ByteMem.copy_copied_iff m dest src (Nat.le_of_lt n.isLt)⟩

end Dunkos
