import Dunkos.FormatInt
import Dunkos.Lib.Loop
import Mathlib.Logic.Function.Basic

/-! # Integers, digit by digit (`write_int` of `xprintf.c`)

`write_int` divides the digits into `revint`, from the last on, and copies them back from there.  `writeIntBuffer` has the two
loops, with `prevint` as an index of the buffer; `writeIntBuffer_eq` says that they write what `writeInt` does, for every
record and whatever the buffer held.  `write_long` is about the conversions of 64-bit numbers. -/

namespace Dunkos

open Loop Numeral Function

/-- The buffer, the index that `prevint` points to, and what is left of `value`. -/
structure RevState where
  revint : ℤ → Char
  prevint : ℤ
  value : ℕ

/-- A round of the loop that divides. -/
def RevState.round (upperDigits : Bool) (base : ℕ) (s : RevState) : RevState where
  revint := update s.revint s.prevint (digitChar upperDigits (s.value % base))
  prevint := s.prevint + 1
  value := s.value / base

/-- `value > 0 && prevint != (revint + 256)`. -/
def RevState.goOn (s : RevState) : Bool := decide (0 < s.value ∧ s.prevint ≠ 256)

/-- The digits in `revint`; `none` when `fuel` rounds are not enough. -/
def fillRevint (fuel : ℕ) (upperDigits : Bool) (base : ℕ) (revint : ℤ → Char) (value : BitVec 64) : Option RevState :=
  if value ≠ 0 then
    runWhile RevState.goOn (fun s => some (s.round upperDigits base)) fuel ⟨revint, 0, value.toNat⟩
  else some ⟨update revint 0 '0', 1, 0⟩

/-- `while (nwrote--) { int chr = *prevint--; *dest++ = chr; }`. -/
def copyBack (revint : ℤ → Char) : ℕ → ℤ → List Char → List Char
  | 0, _, dest => dest
  | nwrote + 1, prevint, dest => copyBack revint nwrote (prevint - 1) (dest ++ [revint prevint])

/-- What stands in front of the digits: `0x`, the padding and the sign. -/
def intLead (pfarg : FormatArgInfo) (negative : Bool) (nwrote : ℤ) : List Char :=
  let npadchrs := max 0 (pfarg.width - nwrote)
  let hex := pfarg.alternateForm && pfarg.base == 16
  let npadchrs := if hex then npadchrs - 2 else npadchrs
  (if hex then ['0', 'x'] else []) ++ List.replicate (npadchrs - 1).toNat pfarg.pad ++
    (if min npadchrs 1 ≠ 0 ∧ pfarg.writeSigned then [signText pfarg negative] else [])

/-- What `write_int` leaves: the text, the arguments that are left, the buffer, and the number of characters in it. -/
structure IntWritten where
  dest : List Char
  argv : List (BitVec 64)
  revint : ℤ → Char
  nwrote : ℤ

/-- `write_int`, on a buffer that holds anything. -/
def writeIntBuffer (fuel : ℕ) (revint : ℤ → Char) (value : BitVec 64) (dest : List Char) (pfarg : FormatArgInfo)
    (argv : List (BitVec 64)) : Option IntWritten :=
  (readValue value pfarg argv).bind fun r =>
    let negative := pfarg.writeSigned && isNegative r.1 pfarg.size
    (fillRevint fuel pfarg.upperDigits pfarg.base revint r.1).map fun s =>
      let nwrote := s.prevint
      let dest := match pfarg.align with
        | .left => copyBack s.revint nwrote.toNat (s.prevint - 1) (dest ++ intLead pfarg negative nwrote)
        | .right => dest
      ⟨dest, r.2, s.revint, nwrote⟩

/-! ### What it is for -/

/-- The conversions of 64-bit numbers. -/
inductive LongConv where
  | lu
  | lo
  | lx
  | lX
  | llu
  | llx
deriving DecidableEq

namespace LongConv

def sizespec : LongConv → SizeSpec
  | llu => .ll
  | llx => .ll
  | _ => .l

def chr : LongConv → Char
  | lo => 'o'
  | lx => 'x'
  | lX => 'X'
  | llx => 'x'
  | _ => 'u'

def base : LongConv → ℕ
  | lo => 8
  | lx => 16
  | lX => 16
  | llx => 16
  | _ => 10

def upperDigits (c : LongConv) : Bool := c = lX

/-- The conversion, without flags. -/
def chars (c : LongConv) : List Char := '%' :: (c.sizespec.chars ++ [c.chr])

/-- `t` is the text of `v`: its shortest numeral, which reads back as `v`.  On every record, buffer and text before, the
conversion is read to its end, and appends `t` with 22 rounds and 22 characters of the buffer at most. -/
structure Writes (c : LongConv) (v : BitVec 64) (t : List Char) : Prop where
  shortest : Shortest (digitChar c.upperDigits) c.base t v.toNat
  back : read digitVal c.base t = v.toNat
  zero : v = 0 → t = ['0']
  room : t.length ≤ 22
  written : ∀ (stale : FormatArgInfo) (revint : ℤ → Char) (value : BitVec 64) (dest rest : List Char)
    (argv : List (BitVec 64)) (fuel : ℕ), 22 ≤ fuel → ∃ farg w,
      readFormat (c.chars ++ rest) (fmtDefaults stale) = some (rest, farg) ∧ farg.data = .int ∧
        writeIntBuffer fuel revint value dest farg (v :: argv) = some w ∧ w.dest = dest ++ t ∧ w.argv = argv ∧
          w.nwrote = t.length ∧ ∀ i : ℤ, i < 0 ∨ 22 ≤ i → w.revint i = revint i

end LongConv

/-! ### The loop that divides -/

section
variable {upperDigits : Bool} {base fuel : ℕ} {revint : ℤ → Char}

/-- The first `n` characters of the buffer. -/
def revChars (revint : ℤ → Char) (n : ℕ) : List Char := (List.range n).map fun i : ℕ => revint i

theorem length_revChars (revint : ℤ → Char) (n : ℕ) : (revChars revint n).length = n := by
  rw [revChars, List.length_map, List.length_range]

theorem revChars_succ (revint : ℤ → Char) (n : ℕ) : revChars revint (n + 1) = revChars revint n ++ [revint n] := by
  rw [revChars, List.range_succ, List.map_append]
  rfl

/-- Writing at the end leaves the characters before it alone. -/
theorem revChars_update (revint : ℤ → Char) (n : ℕ) (chr : Char) :
    revChars (update revint n chr) (n + 1) = revChars revint n ++ [chr] := by
  have hbefore : revChars (update revint n chr) n = revChars revint n := by
    refine List.map_congr_left fun i hi => ?_
    have hlt := List.mem_range.mp hi
    exact update_of_ne (by omega) _ _
  rw [revChars_succ, hbefore, update_self]

/-- The buffer has `done` characters, which are the first of `digits`; those that are to come are the rest. -/
structure RevFilling (upperDigits : Bool) (base : ℕ) (revint : ℤ → Char) (digits : List Char) (done : ℕ) (s : RevState) :
    Prop where
  prevint : s.prevint = done
  room : done ≤ 256
  digits : revChars s.revint done ++ revDigits upperDigits base (256 - done) s.value = digits
  kept : ∀ i : ℤ, i < 0 ∨ done ≤ i → s.revint i = revint i

/-- **One round** writes one digit more. -/
theorem RevFilling.round {digits : List Char} {done : ℕ} {s : RevState} (h : RevFilling upperDigits base revint digits done s)
    (hgo : s.goOn = true) : RevFilling upperDigits base revint digits (done + 1) (s.round upperDigits base) ∧
      done < digits.length := by
  obtain ⟨hvalue, hend⟩ := of_decide_eq_true hgo
  have hprev := h.prevint
  have hroom := h.room
  have hlt : done < 256 := by omega
  have hleft : 256 - done = 256 - (done + 1) + 1 := by omega
  have hdigits := h.digits
  rw [hleft, revDigits, if_neg (by omega), List.append_cons] at hdigits
  refine ⟨⟨by rw [RevState.round, hprev, Int.natCast_succ], hlt, ?_, fun i hi => ?_⟩, ?_⟩
  · rw [RevState.round, hprev, revChars_update]
    exact hdigits
  · have hne : i ≠ s.prevint := by omega
    exact (update_of_ne hne _ _).trans (h.kept i (by omega))
  · rw [← hdigits]
    simp only [List.length_append, length_revChars, List.length_singleton]
    omega

/-- At the end all digits are in the buffer. -/
theorem RevFilling.stop {digits : List Char} {done : ℕ} {s : RevState} (h : RevFilling upperDigits base revint digits done s)
    (hstop : s.goOn = false) : revChars s.revint done = digits ∧ done = digits.length := by
  have hno := of_decide_eq_false hstop
  have hprev := h.prevint
  have hrest : revDigits upperDigits base (256 - done) s.value = [] := by
    rcases Nat.eq_zero_or_pos s.value with hzero | hpos
    · cases 256 - done with
      | zero => rfl
      | succ room => rw [revDigits, if_pos hzero]
    · have hfull : 256 - done = 0 := by omega
      rw [hfull]
      rfl
  have hdigits := h.digits
  rw [hrest, List.append_nil] at hdigits
  exact ⟨hdigits, by rw [← hdigits, length_revChars]⟩

/-- **The loop ends**, with one round for each digit. -/
theorem fillRevint_total (revint : ℤ → Char) (v : BitVec 64) (hf : (revInt upperDigits base v).length ≤ fuel) :
    ∃ s, fillRevint fuel upperDigits base revint v = some s ∧ s.prevint = (revInt upperDigits base v).length ∧
      revChars s.revint (revInt upperDigits base v).length = revInt upperDigits base v ∧
      ∀ i : ℤ, i < 0 ∨ (revInt upperDigits base v).length ≤ i → s.revint i = revint i := by
  unfold fillRevint
  by_cases hv : v = 0
  · subst hv
    refine ⟨_, rfl, rfl, rfl, fun i hi => update_of_ne ?_ _ _⟩
    have hone : (revInt upperDigits base 0).length = 1 := rfl
    omega
  · have hrev : revInt upperDigits base v = revDigits upperDigits base 256 v.toNat := if_pos hv
    rw [hrev] at hf ⊢
    rw [if_pos hv]
    -- the rounds that are left are as many as the digits
    have hloop : ∃ s, runWhile RevState.goOn (fun s => some (s.round upperDigits base)) fuel ⟨revint, 0, v.toNat⟩ =
        some s ∧ (∃ done, RevFilling upperDigits base revint (revDigits upperDigits base 256 v.toNat) done s) ∧
          s.goOn = false := runWhile_total
      (v := fun s => (revDigits upperDigits base 256 v.toNat).length - s.prevint.toNat) (fun s hI hgo => by
        obtain ⟨done, h⟩ := hI
        obtain ⟨hnext, hlt⟩ := h.round hgo
        have hprev := h.prevint
        have hprev' := hnext.prevint
        exact ⟨_, rfl, ⟨done + 1, hnext⟩, by omega⟩) hf ⟨0, rfl, Nat.zero_le _, rfl, fun _ _ => rfl⟩
    obtain ⟨s, hs, ⟨done, hfilled⟩, hstop⟩ := hloop
    obtain ⟨hchars, hdone⟩ := hfilled.stop hstop
    subst hdone
    exact ⟨s, hs, hfilled.prevint, hchars, hfilled.kept⟩

end

/-! ### The loop that copies -/

/-- The characters are copied from the last to the first. -/
theorem copyBack_eq (revint : ℤ → Char) (n : ℕ) (dest : List Char) :
    copyBack revint n (n - 1) dest = dest ++ (revChars revint n).reverse := by
  induction n generalizing dest with
  | zero => exact (List.append_nil dest).symm
  | succ n ih =>
      have hlast : ((n + 1 : ℕ) : ℤ) - 1 = n := by omega
      rw [hlast, copyBack, ih, revChars_succ, List.reverse_append, List.append_assoc]
      rfl

theorem intText_eq_lead (pfarg : FormatArgInfo) (v : BitVec 64) (dest : List Char) :
    dest ++ intText pfarg v = match pfarg.align with
      | .left => dest ++ intLead pfarg (pfarg.writeSigned && isNegative v pfarg.size)
          (revInt pfarg.upperDigits pfarg.base v).length ++ (revInt pfarg.upperDigits pfarg.base v).reverse
      | .right => dest := by
  unfold intText
  cases pfarg.align with
  | left => exact (List.append_assoc dest _ _).symm
  | right => exact List.append_nil dest

/-- The buffer has room for every number. -/
theorem length_revInt_le (upperDigits : Bool) (base : ℕ) (v : BitVec 64) : (revInt upperDigits base v).length ≤ 256 := by
  have hroom : ∀ room value, (revDigits upperDigits base room value).length ≤ room := by
    intro room
    induction room with
    | zero => exact fun _ => Nat.le_refl 0
    | succ room ih =>
        intro value
        rw [revDigits]
        split_ifs
        · exact Nat.zero_le _
        · exact Nat.succ_le_succ (ih _)
  unfold revInt
  split_ifs
  · exact hroom 256 _
  · decide

/-- **The loops write the text**, and use one character of the buffer for each digit. -/
theorem writeIntBuffer_eq {pfarg : FormatArgInfo} {value v : BitVec 64} {argv rest : List (BitVec 64)} {fuel : ℕ}
    (hvalue : readValue value pfarg argv = some (v, rest))
    (hf : (revInt pfarg.upperDigits pfarg.base v).length ≤ fuel) (revint : ℤ → Char) (dest : List Char) :
    ∃ w, writeIntBuffer fuel revint value dest pfarg argv = some w ∧ w.dest = dest ++ intText pfarg v ∧
      w.argv = rest ∧ w.nwrote = (revInt pfarg.upperDigits pfarg.base v).length ∧
      ∀ i : ℤ, i < 0 ∨ (revInt pfarg.upperDigits pfarg.base v).length ≤ i → w.revint i = revint i := by
  obtain ⟨s, hs, hprev, hchars, hkept⟩ := fillRevint_total revint v hf
  unfold writeIntBuffer
  rw [hvalue, Option.bind_some, hs, Option.map_some]
  refine ⟨_, rfl, ?_, rfl, hprev, hkept⟩
  rw [intText_eq_lead]
  cases pfarg.align with
  | left =>
      dsimp only
      rw [hprev, Int.toNat_natCast, copyBack_eq, hchars]
  | right => rfl

/-- `write_int` with its loops is `writeInt`, for every record. -/
theorem writeIntBuffer_refines (revint : ℤ → Char) (value : BitVec 64) (dest : List Char) (pfarg : FormatArgInfo)
    (argv : List (BitVec 64)) : (writeIntBuffer 256 revint value dest pfarg argv).map (fun w => (w.dest, w.argv)) =
      writeInt value dest pfarg argv := by
  unfold writeInt
  cases hvalue : readValue value pfarg argv with
  | none =>
      rw [writeIntBuffer, hvalue]
      rfl
  | some r =>
      obtain ⟨w, hw, hdest, hargv, -⟩ := writeIntBuffer_eq hvalue (length_revInt_le _ _ _) revint dest
      rw [hw, Option.map_some, Option.map_some, hdest, hargv]

/-! ### The conversions -/

namespace LongConv

theorem chr_mem (c : LongConv) : c.chr ∈ convspecs := by cases c <;> decide

def conversion (c : LongConv) : Conversion := ⟨[], c.sizespec, c.chr, Conversion.no_flags, c.chr_mem⟩

theorem base_mem (c : LongConv) : 8 ≤ c.base ∧ c.base ≤ 16 := by cases c <;> decide

/-- 22 octal digits have 66 bits. -/
theorem length_numeral_le (c : LongConv) (v : BitVec 64) :
    (numeral (digitChar c.upperDigits) c.base v.toNat).length ≤ 22 := by
  have hbase := c.base_mem
  have hlt : v.toNat < c.base ^ 22 := by
    calc v.toNat < 2 ^ 64 := v.isLt
      _ ≤ 8 ^ 22 := by decide
      _ ≤ c.base ^ 22 := Nat.pow_le_pow_left hbase.1 22
  rw [numeral, List.length_map, digitsOf]
  split_ifs
  · decide
  · rw [List.length_reverse]
    exact (Nat.digits_length_le_iff (by omega) _).mpr hlt

end LongConv

/-- **The numbers of 64 bits are written right.** -/
theorem write_long (c : LongConv) (v : BitVec 64) : ∃ t, c.Writes v t := by
  have hbase := c.base_mem
  have hone : 1 < c.base := by omega
  have hdata : c.conversion.data = .int := by cases c <;> rfl
  have hsize : c.conversion.size = c.sizespec.size := by cases c <;> rfl
  have hne : c.conversion.size ≠ 0 := by cases c <;> decide
  have hvalue : c.conversion.value v = v := by
    unfold Conversion.value
    rw [hsize]
    cases c <;> rfl
  have halign : c.conversion.align = .left := by cases c <;> rfl
  have hb : c.conversion.base = c.base := by cases c <;> rfl
  have hu : c.conversion.upperDigits = c.upperDigits := by cases c <;> rfl
  have hlead : (c.conversion.alternateForm && c.conversion.base == 16) = false := by cases c <;> rfl
  have hlen := c.length_numeral_le v
  have hrev := revInt_reverse c.upperDigits hone v
  have hlength : (revInt c.upperDigits c.base v).length = (numeral (digitChar c.upperDigits) c.base v.toNat).length := by
    rw [← hrev, List.length_reverse]
  refine ⟨numeral (digitChar c.upperDigits) c.base v.toNat, (shortest_iff hone).mpr rfl, ?_, ?_, hlen, ?_⟩
  · exact (spells_numeral _ hone _).read (digitVal_of_lt _ hbase.2)
  · rintro rfl
    rfl
  · intro stale revint value dest rest argv fuel hf
    obtain ⟨farg, hread, h⟩ := c.conversion.readFormat_chars rest stale
    have hslot : readValue value farg (v :: argv) = some (v, argv) := by
      rw [h.readValue_cons hne, hvalue, ite_self]
    have hfu : farg.upperDigits = c.upperDigits := h.upperDigits.trans hu
    have hfb : farg.base = c.base := h.base.trans hb
    have htext : intText farg v = numeral (digitChar c.upperDigits) c.base v.toNat := by
      rw [h.intText, halign, if_neg (by decide), Conversion.number, hlead, hu, hb, hrev]
      rfl
    have hrounds : (revInt farg.upperDigits farg.base v).length ≤ fuel := by
      rw [hfu, hfb, hlength]
      exact Nat.le_trans hlen hf
    obtain ⟨w, hw, hdest, hargv, hnwrote, hkept⟩ := writeIntBuffer_eq hslot hrounds revint dest
    rw [hfu, hfb, hlength] at hnwrote hkept
    exact ⟨farg, w, hread, h.data.trans hdata, hw, by rw [hdest, htext], hargv, hnwrote, fun i hi => hkept i (by omega)⟩

end Dunkos
