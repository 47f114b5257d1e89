import Mathlib.Algebra.GroupWithZero.Nat
import Mathlib.Data.List.GetD
import Mathlib.Data.Nat.Notation

/-! # Packed records

A record is a list of fields, written one after the other: numbers with their least significant byte first, texts that are
cut or filled with null bytes to their width, null bytes, and the null bytes up to a multiple of a number.  `leAt` reads a
number back, also from a row of numbers (`words`). -/

namespace Pack

/-- The lowest `n` bytes of a number. -/
def leBytes : ℕ → ℕ → List (BitVec 8)
  | 0, _ => []
  | n + 1, v => BitVec.ofNat 8 v :: leBytes n (v / 256)

/-- The number in the `n` bytes at `ofs`. -/
def leAt (b : ℕ → BitVec 8) (ofs : ℕ) : ℕ → ℕ
  | 0 => 0
  | n + 1 => (b ofs).toNat + 256 * leAt b (ofs + 1) n

/-- A text, to `n` bytes. -/
def fillText (n : ℕ) (s : List (BitVec 8)) : List (BitVec 8) := (s ++ List.replicate n 0).take n

inductive Field where
  | word (n v : ℕ)
  | text (n : ℕ) (s : List (BitVec 8))
  | null
  | align (n : ℕ)

/-- The bytes of a field that begins at `pos`. -/
def Field.bytes (pos : ℕ) : Field → List (BitVec 8)
  | word n v => leBytes n v
  | text n s => fillText n s
  | null => [0]
  | align n => List.replicate ((n - pos % n) % n) 0

def pack (fields : List Field) : List (BitVec 8) := fields.foldl (fun acc f => acc ++ f.bytes acc.length) []

@[simp] theorem length_leBytes (n v : ℕ) : (leBytes n v).length = n := by
  induction n generalizing v with
  | zero => rfl
  | succ n ih => simp [leBytes, ih]

@[simp] theorem length_fillText (n : ℕ) (s : List (BitVec 8)) : (fillText n s).length = n := by
  simp [fillText]

theorem getD_fillText {n : ℕ} {s : List (BitVec 8)} {i : ℕ} (hi : i < n) :
    (fillText n s).getD i 0 = s.getD i 0 := by
  unfold fillText
  simp only [List.getD_eq_getElem?_getD, List.getElem?_take, hi, if_true]
  rcases Nat.lt_or_ge i s.length with hs | hs
  · rw [List.getElem?_append_left hs]
  · rw [List.getElem?_append_right hs, List.getElem?_eq_none hs, List.getElem?_replicate]
    split <;> rfl

/-- Items of `n` bytes each, one after the other. -/
theorem getD_flatMap {α : Type*} {f : α → List (BitVec 8)} {n : ℕ} (hf : ∀ a, (f a).length = n) {j : ℕ} (hj : j < n)
    (l : List α) (i : ℕ) : (l.flatMap f).getD (n * i + j) 0 = (l[i]?.elim [] f).getD j 0 := by
  induction l generalizing i with
  | nil => simp
  | cons a l ih =>
      have hlen : (f a).length = n := hf a
      rw [List.flatMap_cons]
      cases i with
      | zero =>
          rw [Nat.mul_zero, Nat.zero_add, List.getD_append _ _ _ _ (by omega)]
          rfl
      | succ i =>
          have hsub : n * (i + 1) + j - (f a).length = n * i + j := by
            rw [hlen, Nat.mul_succ]
            omega
          rw [List.getD_append_right _ _ _ _ (by rw [hlen, Nat.mul_succ]; omega), hsub, ih]
          rfl

/-- **Numbers are read back**, up to what their width holds. -/
theorem leAt_of_leBytes {b : ℕ → BitVec 8} {ofs n v : ℕ} (h : ∀ i < n, b (ofs + i) = (leBytes n v).getD i 0) :
    leAt b ofs n = v % 256 ^ n := by
  induction n generalizing ofs v with
  | zero => simp [leAt, Nat.mod_one]
  | succ n ih =>
      have hhead : b ofs = BitVec.ofNat 8 v := h 0 (Nat.succ_pos n)
      have htail : leAt b (ofs + 1) n = v / 256 % 256 ^ n := by
        refine ih fun i hi => ?_
        rw [Nat.add_assoc, Nat.add_comm 1 i]
        exact h (i + 1) (Nat.succ_lt_succ hi)
      have hpow : 256 ^ (n + 1) = 256 * 256 ^ n := by rw [Nat.pow_succ, Nat.mul_comm]
      rw [leAt, hhead, htail, BitVec.toNat_ofNat, hpow, Nat.mod_mul]

theorem toNat_append {v w : ℕ} (x : BitVec v) (y : BitVec w) : (x ++ y).toNat = x.toNat * 2 ^ w + y.toNat := by
  rw [BitVec.toNat_append, ← Nat.shiftLeft_add_eq_or_of_lt y.isLt, Nat.shiftLeft_eq]

/-- Numbers of given widths, one after the other. -/
def words (ws : List (ℕ × ℕ)) : List (BitVec 8) := ws.flatMap fun w => leBytes w.1 w.2

end Pack
