import Dunkos.SleepTime

/-! # The checked product (`algo.h`)

`safemul` of a `uint64_t` and an `int`, into an `int64_t`.  It tests the eighth bit of the product, instead of its sign.
`safemul_iff` says for which factors the answer is right all the same. -/

namespace Dunkos

/-! ### What it is for -/

/-- `safemul` is true exactly when the product is an `int64_t`, and then stores it. -/
structure SafemulRight (a : BitVec 64) (b : BitVec 32) : Prop where
  fits : (safemul a b).1 = true ↔ (a.toNat : ℤ) * b.toInt ≤ 2 ^ 63 - 1
  stored : (safemul a b).1 = true → (safemul a b).2.toInt = a.toNat * b.toInt

/-! ### The product -/

section
variable {a : BitVec 64} {b : BitVec 32}

theorem toInt_of_nonneg (hb : 0 ≤ b.toInt) : b.toInt = b.toNat := by
  rw [BitVec.toInt_eq_toNat_cond] at *
  split_ifs at * <;> omega

theorem signExtend_of_nonneg (hb : 0 ≤ b.toInt) : (b.signExtend 64).toNat = b.toNat := by
  have hext : (b.signExtend 64).toInt = b.toNat := by
    rw [BitVec.toInt_signExtend_of_le (by decide), toInt_of_nonneg hb]
  rw [BitVec.toInt_eq_toNat_cond] at hext
  split_ifs at hext <;> omega

/-- What is stored, modulo 2^64. -/
theorem safemul_toNat (hb : 0 ≤ b.toInt) : (safemul a b).2.toNat = a.toNat * b.toNat % 2 ^ 64 := by
  rw [safemul_eq, BitVec.toNat_mul, signExtend_of_nonneg hb]

/-- The bit that is tested is the highest of the lowest byte. -/
theorem safemul_true_iff (hb : 0 ≤ b.toInt) :
    (safemul a b).1 = true ↔ a.toNat % 256 * (b.toNat % 256) % 256 < 128 := by
  have hprod : (a * b.signExtend 64).toNat = a.toNat * b.toNat % 2 ^ 64 := by
    rw [BitVec.toNat_mul, signExtend_of_nonneg hb]
  rw [safemul_eq, ← Nat.mul_mod, Bool.not_eq_true', BitVec.getLsbD, Nat.testBit_eq_decide_div_mod_eq,
    decide_eq_false_iff_not, hprod]
  omega

/-- What is stored is the product, when that is an `int64_t`. -/
theorem safemul_stored (hb : 0 ≤ b.toInt) (h : a.toNat * b.toNat < 2 ^ 63) :
    (safemul a b).2.toInt = a.toNat * b.toInt := by
  have hnat : (safemul a b).2.toNat = a.toNat * b.toNat := by
    rw [safemul_toNat hb]
    omega
  rw [BitVec.toInt_eq_toNat_of_lt (by omega), hnat, toInt_of_nonneg hb, Int.natCast_mul]

/-- **The checked product is right** exactly when the lowest byte of the product is 128 or more for the products that are
no `int64_t`, and for no other. -/
theorem safemul_iff (hb : 0 ≤ b.toInt) : SafemulRight a b ↔
    (128 ≤ a.toNat % 256 * (b.toNat % 256) % 256 ↔ 2 ^ 63 ≤ a.toNat * b.toNat) := by
  have hcast : (a.toNat : ℤ) * b.toInt = (a.toNat * b.toNat : ℕ) := by rw [toInt_of_nonneg hb, Int.natCast_mul]
  constructor
  · rintro ⟨hfits, -⟩
    rw [safemul_true_iff hb, hcast] at hfits
    omega
  · intro h
    have hfits : (safemul a b).1 = true ↔ a.toNat * b.toNat < 2 ^ 63 := by
      rw [safemul_true_iff hb]
      omega
    refine ⟨?_, fun htrue => safemul_stored hb (hfits.mp htrue)⟩
    rw [hfits, hcast]
    omega

end

theorem safemul_iff_small : SafemulRight 7 6 := (safemul_iff (by decide)).mpr (by decide)

/-- As `sleep_timespec` calls it, `safemul` is true always, and right for the seconds that fit. -/
theorem safemul_nano (a : BitVec 64) :
    (safemul a nanoPerSec).1 = true ∧ (SafemulRight a nanoPerSec ↔ a.toNat * 10 ^ 9 < 2 ^ 63) := by
  have hb : 0 ≤ nanoPerSec.toInt := by decide
  have htrue : (safemul a nanoPerSec).1 = true := by
    rw [safemul_true_iff hb, show nanoPerSec.toNat % 256 = 0 from rfl]
    omega
  have hcast : (a.toNat : ℤ) * nanoPerSec.toInt = (a.toNat * 10 ^ 9 : ℕ) := rfl
  refine ⟨htrue, fun h => ?_, fun h => ⟨iff_of_true htrue ?_, fun _ => safemul_stored hb h⟩⟩
  · have hle := h.fits.mp htrue
    rw [hcast] at hle
    omega
  · rw [hcast]
    omega

/-- **128 is no `int64_t`, and 2^63 is one**, says `safemul`. -/
theorem safemul_wrong : (safemul 128 1).1 = false ∧ (safemul 0x8000000000000000#64 1).1 = true ∧
    (safemul 0x8000000000000000#64 1).2.toInt = -0x8000000000000000 ∧
      ¬ ∀ (a : BitVec 64) (b : BitVec 32), 0 ≤ b.toInt → SafemulRight a b := by
  have hfalse : (safemul 128 1).1 = false := by decide
  refine ⟨hfalse, by decide, by decide, fun h => ?_⟩
  have htrue := (h 128 1 (by decide)).fits.mpr (by decide)
  rw [hfalse] at htrue
  cases htrue

end Dunkos
