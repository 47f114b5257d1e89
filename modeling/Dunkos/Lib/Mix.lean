import Mathlib.Logic.Equiv.Basic

/-! # Mixing the bits of a word

Two steps that hash functions are made of, as permutations of the words of `w` bits: the xor with a shift to the right by half
the width or more, which is its own inverse, and the multiplication by a number that has an inverse. -/

namespace Mix

variable {w : ℕ}

theorem xorShift_involutive {k : ℕ} (h : w ≤ k + k) : Function.Involutive fun x : BitVec w => x ^^^ (x >>> k) := by
  intro x
  have htwice : x >>> k >>> k = 0#w := by rw [← BitVec.shiftRight_add, BitVec.ushiftRight_eq_zero h]
  show x ^^^ x >>> k ^^^ (x ^^^ x >>> k) >>> k = x
  rw [BitVec.ushiftRight_xor_distrib, htwice, BitVec.xor_zero, BitVec.xor_assoc, BitVec.xor_self, BitVec.xor_zero]

theorem mul_cancel {c d : BitVec w} (h : c * d = 1#w) : Function.LeftInverse (fun x : BitVec w => x * d) fun x => x * c := by
  intro x
  show x * c * d = x
  rw [BitVec.mul_assoc, h, BitVec.mul_one]

theorem mul_cancel' {c d : BitVec w} (h : c * d = 1#w) : Function.RightInverse (fun x : BitVec w => x * d) fun x => x * c :=
  mul_cancel ((BitVec.mul_comm d c).trans h)

/-- `x ^= x >> k`. -/
def xorShift (k : ℕ) (h : w ≤ k + k) : Equiv.Perm (BitVec w) := (xorShift_involutive h).toPerm

/-- `x *= c`, where `d` is the inverse of `c`. -/
def mulBy (c d : BitVec w) (h : c * d = 1#w) : Equiv.Perm (BitVec w) where
  toFun x := x * c
  invFun x := x * d
  left_inv := mul_cancel h
  right_inv := mul_cancel' h

@[simp] theorem xorShift_apply {k : ℕ} (h : w ≤ k + k) (x : BitVec w) : xorShift k h x = x ^^^ (x >>> k) := rfl

@[simp] theorem mulBy_apply {c d : BitVec w} (h : c * d = 1#w) (x : BitVec w) : mulBy c d h x = x * c := rfl

end Mix
