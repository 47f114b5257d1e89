import Dunkos.Spt
import Dunkos.Lib.Mix

/-! # The hash of a word (`algo.h`)

The three hash tables of the kernel hash a number, with `hash_uint64`.  Each of its five steps can be undone, so no two numbers
have one hash, and elements meet in a bucket by the reduction modulo the number of buckets only. -/

namespace Dunkos

open Mix

/-- `hash_inode`. -/
def hashInode (sector : BitVec 64) : ℕ := (hashUint64 sector).toNat

theorem half_word : 64 ≤ 33 + 33 := by decide

theorem first_inverse : 0xFF51AFD7ED558CCD#64 * 0x4F74430C22A54005#64 = 1#64 := rfl

theorem second_inverse : 0xC4CEB9FE1A85EC53#64 * 0x9CB4B2F8129337DB#64 = 1#64 := rfl

/-- The five steps of `hash_uint64`, each with its inverse. -/
def hashPerm : Equiv.Perm (BitVec 64) :=
  (xorShift 33 half_word).trans <| (mulBy _ _ first_inverse).trans <| (xorShift 33 half_word).trans <|
    (mulBy _ _ second_inverse).trans <| xorShift 33 half_word

theorem coe_hashPerm : ⇑hashPerm = hashUint64 := rfl

/-- What was hashed is found again, with the steps undone from the last to the first. -/
def unhashUint64 (h : BitVec 64) : BitVec 64 :=
  let h := h ^^^ (h >>> 33)
  let h := h * 0x9CB4B2F8129337DB#64
  let h := h ^^^ (h >>> 33)
  let h := h * 0x4F74430C22A54005#64
  h ^^^ (h >>> 33)

theorem coe_hashPerm_symm : ⇑hashPerm.symm = unhashUint64 := rfl

theorem unhash_hash (h : BitVec 64) : unhashUint64 (hashUint64 h) = h := hashPerm.symm_apply_apply h

theorem hash_unhash (h : BitVec 64) : hashUint64 (unhashUint64 h) = h := hashPerm.apply_symm_apply h

theorem hashUint64_injective : Function.Injective hashUint64 := coe_hashPerm ▸ hashPerm.injective

theorem toNat_hash_injective : Function.Injective fun h => (hashUint64 h).toNat :=
  fun _ _ h => hashUint64_injective (BitVec.eq_of_toNat_eq h)

theorem signExtend_injective : Function.Injective (BitVec.signExtend 64 : BitVec 32 → BitVec 64) := by
  intro a b h
  have hint := congrArg BitVec.toInt h
  rw [BitVec.toInt_signExtend_of_le (by decide), BitVec.toInt_signExtend_of_le (by decide)] at hint
  exact BitVec.eq_of_toInt_eq hint

/-- **No two words have one hash**, and no two numbers of files, sectors of inodes or addresses of pages. -/
theorem hash_uint64_bijective : Function.Bijective hashUint64 ∧
    Function.Injective hashFd ∧ Function.Injective hashInode ∧ Function.Injective pageHash := by
  refine ⟨coe_hashPerm ▸ hashPerm.bijective, ?_, toNat_hash_injective, toNat_hash_injective⟩
  exact toNat_hash_injective.comp signExtend_injective

end Dunkos
