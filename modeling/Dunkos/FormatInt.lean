import Dunkos.Xprintf

/-! # The texts of integers (`write_int` of `xprintf.c`)

The conversions without a size specifier are given the size four, `%p` too, and read their argument as an `int`, which
the assignment to `value` extends with its sign to 64 bits.  `isnegative` compares `value` with the sign bit alone, and
of the width of one character nothing is left for a sign.  `write_int_iff` says which arguments come out right; where a
conversion before has left `szt` or `ptd` set, or the stack has, the slot is read whole. -/

namespace Dunkos

open Numeral

/-- The conversions of integers that `read_format` has a case for. -/
inductive IntConv where
  | i
  | u
  | o
  | x
  | X
  | p
deriving DecidableEq

namespace IntConv

def chr : IntConv → Char
  | i => 'i'
  | u => 'u'
  | o => 'o'
  | x => 'x'
  | X => 'X'
  | p => 'p'

/-! ### What they are for -/

def base : IntConv → ℕ
  | i => 10
  | u => 10
  | o => 8
  | x => 16
  | X => 16
  | p => 16

/-- The argument in a slot: an `int`, an `unsigned`, or a pointer, which fills it. -/
def arg (slot : BitVec 64) : IntConv → ℤ
  | i => (slot.setWidth 32).toInt
  | p => slot.toNat
  | _ => (slot.setWidth 32).toNat

/-- What stands in front of the numeral of `v`. -/
def lead (v : ℤ) : IntConv → List Char
  | p => ['0', 'x']
  | _ => if v < 0 then ['-'] else []

/-- The digits may be `abcdef`, or `ABCDEF`. -/
def Cased (upperDigits : Bool) : IntConv → Prop
  | x => upperDigits = false
  | X => upperDigits = true
  | _ => True

/-- The number that a text reads back as. -/
def back (c : IntConv) (t : List Char) : ℤ :=
  if c = p then read digitVal c.base (t.drop 2)
  else if t.head? = some '-' then -read digitVal c.base t.tail
  else read digitVal c.base t

/-- The text of the argument: its shortest numeral, which reads back as the argument. -/
structure Right (c : IntConv) (slot : BitVec 64) (t : List Char) : Prop where
  text : ∃ upperDigits s, c.Cased upperDigits ∧ t = c.lead (c.arg slot) ++ s ∧
    Shortest (digitChar upperDigits) c.base s (c.arg slot).natAbs
  back : c.back t = c.arg slot

/-- The arguments that come out right; `wide` says that `szt` or `ptd` is left set. -/
def Fits (wide : Bool) (slot : BitVec 64) : IntConv → Prop
  | i => if wide then slot.toNat < 2 ^ 31 else 0 ≤ (slot.setWidth 32).toInt
  | p => wide ∨ (slot.setWidth 32).signExtend 64 = slot
  | _ => if wide then slot.toNat < 2 ^ 32 else (slot.setWidth 32).toNat < 2 ^ 31

end IntConv

/-- The round of `vsprintf` for `%` and `conv`, on the record `stale` that the rounds before it leave, writes `t`
behind what is written, uses up its slot, and goes on behind the conversion. -/
def Formats (stale : FormatArgInfo) (conv : Char) (slot : BitVec 64) (t : List Char) : Prop :=
  ∀ (str : BitVec 64 → List Char) (value : BitVec 64) (dest rest : List Char) (argv : List (BitVec 64)), ∃ farg,
    readFormat ('%' :: conv :: rest) (fmtDefaults stale) = some (rest, farg) ∧
      writeFormat str value dest farg (slot :: argv) = some (dest ++ t, argv)

theorem Formats.inj {stale : FormatArgInfo} {conv : Char} {slot : BitVec 64} {t t' : List Char}
    (h : Formats stale conv slot t) (h' : Formats stale conv slot t') : t = t' := by
  obtain ⟨farg, hread, hwrite⟩ := h (fun _ => []) 0 [] [] []
  obtain ⟨farg', hread', hwrite'⟩ := h' (fun _ => []) 0 [] [] []
  have hfarg := hread.symm.trans hread'
  simp only [Option.some.injEq, Prod.mk.injEq, true_and] at hfarg
  subst hfarg
  have ht := hwrite.symm.trans hwrite'
  simpa using ht

namespace IntConv

theorem chr_mem (c : IntConv) : c.chr ∈ convspecs := by cases c <;> decide

def conversion (c : IntConv) : Conversion := .bare c.chr c.chr_mem

/-- What is read from a slot. -/
def reads (wide : Bool) (slot : BitVec 64) : BitVec 64 := if wide then slot else intArg slot

/-- What a conversion writes for the number `v`. -/
def printed (c : IntConv) (v : BitVec 64) : List Char :=
  (if c = p then ['0', 'x'] else []) ++ numeral (digitChar c.conversion.upperDigits) c.base v.toNat

theorem number_conversion (c : IntConv) (v : BitVec 64) : c.conversion.number v = c.printed v := by
  have hbase : c.conversion.base = c.base := by cases c <;> rfl
  have hlead : (c.conversion.alternateForm && c.conversion.base == 16) = decide (c = p) := by cases c <;> rfl
  have hone : 1 < c.conversion.base := by cases c <;> decide
  unfold Conversion.number printed
  rw [hlead, revInt_reverse _ hone, hbase]
  simp

theorem formats_printed (c : IntConv) (stale : FormatArgInfo) (slot : BitVec 64) :
    Formats stale c.chr slot (c.printed (reads (stale.szt || stale.ptd) slot)) := by
  intro str value dest rest argv
  obtain ⟨farg, hread, h⟩ := c.conversion.readFormat_chars rest stale
  refine ⟨farg, hread, ?_⟩
  have hdata : c.conversion.data = .int := by cases c <;> rfl
  have hsize : c.conversion.size = 4 := by cases c <;> rfl
  have halign : c.conversion.align = .left := by cases c <;> rfl
  have hvalue : c.conversion.value slot = intArg slot := by simp [Conversion.value, hsize]
  have hwide : (farg.szt = true ∨ farg.ptd = true) ↔ (stale.szt || stale.ptd) = true := by
    simp [h.szt, h.ptd, conversion, Conversion.bare]
  unfold writeFormat writeInt
  rw [h.data, hdata]
  dsimp only
  rw [h.readValue_cons (by simp [hsize]), Option.map_some, h.intText, halign, if_neg (by decide), number_conversion,
    hvalue, if_congr hwide rfl rfl]
  rfl

/-! ### Which arguments come out right -/

theorem intArg_toNat (slot : BitVec 64) : (intArg slot).toNat =
    (slot.setWidth 32).toNat + if (slot.setWidth 32).toNat < 2 ^ 31 then 0 else 2 ^ 64 - 2 ^ 32 := by
  have hmsb := BitVec.msb_eq_decide (slot.setWidth 32)
  have hlt := (slot.setWidth 32).isLt
  unfold intArg
  rw [BitVec.toNat_signExtend, hmsb]
  simp only [decide_eq_true_eq, BitVec.toNat_setWidth]
  split_ifs <;> omega

/-- What is read is the argument. -/
theorem fits_iff (c : IntConv) (wide : Bool) (slot : BitVec 64) :
    ((reads wide slot).toNat : ℤ) = c.arg slot ↔ c.Fits wide slot := by
  have hext := intArg_toNat slot
  have hint := BitVec.toInt_eq_toNat_cond (slot.setWidth 32)
  have hlow : (slot.setWidth 32).toNat = slot.toNat % 2 ^ 32 := BitVec.toNat_setWidth 32 slot
  have hlt := (slot.setWidth 32).isLt
  cases wide with
  | true =>
      have hreads : reads true slot = slot := rfl
      rw [hreads]
      cases c with
      | i =>
          simp only [arg, Fits, if_true]
          split_ifs at hint <;> omega
      | p => simp [arg, Fits]
      | _ =>
          simp only [arg, Fits, if_true]
          omega
  | false =>
      have hreads : reads false slot = intArg slot := rfl
      rw [hreads]
      cases c with
      | i =>
          simp only [arg, Fits, Bool.false_eq_true, if_false]
          split_ifs at hint hext <;> omega
      | p =>
          simp only [arg, Fits, Bool.false_eq_true, false_or, Nat.cast_inj]
          exact ⟨BitVec.eq_of_toNat_eq, congrArg BitVec.toNat⟩
      | _ =>
          simp only [arg, Fits, Bool.false_eq_true, if_false]
          split_ifs at hext <;> omega

theorem digitChar_ne_minus : ∀ (upperDigits : Bool) (d : Fin 16), digitChar upperDigits d ≠ '-' := by decide

theorem base_mem (c : IntConv) : 1 < c.base ∧ c.base ≤ 16 := by cases c <;> decide

/-- No digit is a minus sign. -/
theorem minus_not_mem_numeral (c : IntConv) (upperDigits : Bool) (n : ℕ) :
    '-' ∉ numeral (digitChar upperDigits) c.base n := by
  intro hmem
  obtain ⟨d, hd, heq⟩ := List.mem_map.mp hmem
  have hlt := Nat.lt_of_lt_of_le (digitsOf_lt c.base_mem.1 n d hd) c.base_mem.2
  exact digitChar_ne_minus upperDigits ⟨d, hlt⟩ heq

/-- The text reads back as what was read from the slot. -/
theorem back_printed (c : IntConv) (v : BitVec 64) : c.back (c.printed v) = v.toNat := by
  have hspells := spells_numeral (digitChar c.conversion.upperDigits) c.base_mem.1 v.toNat
  have hread := hspells.read (digitVal_of_lt _ c.base_mem.2)
  unfold back printed
  by_cases hp : c = p
  · subst hp
    show ((read digitVal p.base (numeral _ _ _) : ℕ) : ℤ) = _
    rw [hread]
  · have hhead : (numeral (digitChar c.conversion.upperDigits) c.base v.toNat).head? ≠ some '-' :=
      fun h => c.minus_not_mem_numeral _ _ (List.mem_of_mem_head? h)
    rw [if_neg hp, if_neg hp, List.nil_append, if_neg hhead, hread]

/-- What a number that is not negative is to be written as is what `write_int` writes. -/
theorem right_printed {c : IntConv} {slot v : BitVec 64} (h : (v.toNat : ℤ) = c.arg slot) :
    c.Right slot (c.printed v) where
  text := by
    refine ⟨c.conversion.upperDigits, numeral (digitChar c.conversion.upperDigits) c.base v.toNat, ?_, ?_, ?_⟩
    · cases c <;> trivial
    · have hpos : ¬ (v.toNat : ℤ) < 0 := Int.not_lt.mpr (Int.natCast_nonneg _)
      unfold printed
      rw [← h]
      cases c <;> simp [lead]
    · rw [← h, Int.natAbs_natCast, shortest_iff c.base_mem.1]
  back := (c.back_printed v).trans h

end IntConv

/-- **Which integers are written right**: those whose 64-bit extension is the number itself. -/
theorem write_int_iff (stale : FormatArgInfo) (c : IntConv) (slot : BitVec 64) :
    (∃ t, Formats stale c.chr slot t ∧ c.Right slot t) ↔ c.Fits (stale.szt || stale.ptd) slot := by
  have hprinted := c.formats_printed stale slot
  rw [← c.fits_iff]
  constructor
  · rintro ⟨t, ht, hright⟩
    rw [← hright.back, ht.inj hprinted, c.back_printed]
  · exact fun h => ⟨_, hprinted, IntConv.right_printed h⟩

/-- A record in which neither `szt` nor `ptd` is set. -/
def clearRecord : FormatArgInfo := (Junk.ofSzt false).farg

theorem formats_clear (c : IntConv) {slot : BitVec 64} {t : List Char} (h : c.conversion.number (intArg slot) = t) :
    Formats clearRecord c.chr slot t := by
  rw [← h, c.number_conversion]
  exact c.formats_printed clearRecord slot

/-- **Minus one, the largest `unsigned` and an address of the kernel**: `%i` and `%u` print the number of 64 bits, and
`%p` the lower half of the pointer. -/
theorem write_int_minus_one :
    Formats clearRecord 'i' 0xFFFFFFFF "18446744073709551615".toList ∧
      Formats clearRecord 'u' 0xFFFFFFFF "18446744073709551615".toList ∧
      Formats clearRecord 'p' 0xFFFF800000100000 "0x100000".toList ∧
      ¬ ∀ stale (c : IntConv) slot, ∃ t, Formats stale c.chr slot t ∧ c.Right slot t := by
  refine ⟨formats_clear .i (by decide +kernel), formats_clear .u (by decide +kernel),
    formats_clear .p (by decide +kernel), fun h => ?_⟩
  obtain ⟨t, ht, hright⟩ := h clearRecord .i 0xFFFFFFFF
  have hprinted := ht.inj (IntConv.formats_printed .i clearRecord 0xFFFFFFFF)
  have hback := hright.back
  rw [hprinted, IntConv.back_printed] at hback
  revert hback
  decide

end Dunkos
