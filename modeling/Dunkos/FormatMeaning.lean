import Dunkos.FormatMemory

/-! # What formats mean (`vsprintf` of `xprintf.c`)

A format is literal text and complete conversions (`FormatItem`), and the arguments are a list of slots of its own: what
is left of them, each conversion is given.  `meaning` goes over the items once.  What it hands on from one conversion to the
next is whether slots are read whole, as they are from the first `%z` or `%t` on, and how many there have been, which says
what the stack holds for a number that is not read.  `vsprintf_meaning` says that `vsprintf`, which goes over the characters,
does just that, with the arguments running out at the same place. -/

namespace Dunkos

/-- Literal text, or a conversion. -/
inductive FormatItem where
  | text (s : List Char) (plain : ∀ c ∈ s, c ≠ '%' ∧ c ≠ '\x00')
  | conversion (c : Conversion)

namespace FormatItem

def chars : FormatItem → List Char
  | text s _ => s
  | conversion c => c.chars

/-- What the count goes up by. -/
def argc : FormatItem → ℕ
  | text _ _ => 0
  | conversion _ => 1

end FormatItem

/-- The format that the items spell. -/
def spelled (items : List FormatItem) : List Char := items.flatMap FormatItem.chars

namespace Conversion

/-- The size specifier says that the slot is read whole, also by the conversions behind it. -/
def Widens (c : Conversion) : Prop := c.sizespec = .z ∨ c.sizespec = .t

instance (c : Conversion) : Decidable c.Widens := inferInstanceAs (Decidable (_ ∨ _))

/-- The text of a number. -/
def numberText (c : Conversion) (v : BitVec 64) : List Char := if c.align = .right then [] else c.number v

/-- The text of the conversion, and the slots that it leaves: `whole` says that slots are read whole, `junk` is the number
that is printed when none is read. -/
def meaning (str : BitVec 64 → List Char) (whole : Bool) (junk : BitVec 64) (c : Conversion) (argv : List (BitVec 64)) :
    Option (List Char × List (BitVec 64)) :=
  match c.data with
  | .esc => some (['%'], argv)
  | .chr => (vaArg argv).map fun r => ([Char.ofNat (r.1.toNat % 256)], r.2)
  | .str => (vaArg argv).map fun r => (str r.1, r.2)
  | _ =>
    if whole then (vaArg argv).map fun r => (c.numberText r.1, r.2)
    else if c.size = 0 then some (c.numberText junk, argv)
    else (vaArg argv).map fun r => (c.numberText (c.value r.1), r.2)

end Conversion

/-- The text of a format, the number of its conversions and the slots that it leaves, behind `k` conversions. -/
def meaning (str : BitVec 64 → List Char) (junk : ℕ → BitVec 64) : Bool → ℕ → List FormatItem → List (BitVec 64) →
    Option Printed
  | _, k, [], argv => some ⟨[], k, argv⟩
  | whole, k, .text s _ :: items, argv =>
    (meaning str junk whole k items argv).map fun r => { r with dest := s ++ r.dest }
  | whole, k, .conversion c :: items, argv =>
    let whole := whole || decide c.Widens
    (c.meaning str whole (junk k) argv).bind fun w =>
      (meaning str junk whole (k + 1) items w.2).map fun r => { r with dest := w.1 ++ r.dest }

/-! ### One conversion -/

namespace Conversion.Reading
variable {c : Conversion} {stale farg : FormatArgInfo} {argv : List (BitVec 64)}

/-- Slots are read whole. -/
theorem whole (h : c.Reading stale farg) : (farg.szt || farg.ptd) = (stale.szt || stale.ptd || decide c.Widens) := by
  have hor : decide c.Widens = (decide (c.sizespec = .z) || decide (c.sizespec = .t)) := Bool.decide_or _ _
  rw [h.szt, h.ptd, hor, Bool.or_assoc, Bool.or_assoc, Bool.or_left_comm (decide _)]

/-- The number that `write_int` reads. -/
theorem readValue_eq (h : c.Reading stale farg) (value : BitVec 64) (argv : List (BitVec 64)) :
    readValue value farg argv =
      if farg.szt || farg.ptd then vaArg argv
      else if c.size = 0 then some (value, argv)
      else (vaArg argv).map fun r => (c.value r.1, r.2) := by
  by_cases hwhole : farg.szt = true ∨ farg.ptd = true
  · have hor : (farg.szt || farg.ptd) = true := (Bool.or_eq_true _ _).mpr hwhole
    rw [if_pos hor]
    unfold readValue
    rcases hwhole with hw | hw
    · rw [if_pos hw]
    · simp [hw]
  · obtain ⟨hszt, hptd⟩ : farg.szt = false ∧ farg.ptd = false := by simpa using hwhole
    rw [hszt, hptd, if_neg (by decide)]
    by_cases hsize : c.size = 0
    · rw [if_pos hsize, h.readValue_of_eq hsize value hszt hptd]
    · rw [if_neg hsize]
      cases argv with
      | nil =>
          unfold readValue vaArg
          rw [h.size]
          rcases c.size_cases with hs | hs | hs | hs | hs | hs
          · exact absurd hs hsize
          all_goals simp [hszt, hptd, hs]
      | cons x rest =>
          rw [h.readValue_cons hsize, hszt, hptd]
          simp [vaArg]

/-- **A conversion writes what it means.** -/
theorem writeFormat_eq (h : c.Reading stale farg) (str : BitVec 64 → List Char) (value : BitVec 64) (dest : List Char)
    (argv : List (BitVec 64)) : Dunkos.writeFormat str value dest farg argv =
      (c.meaning str (farg.szt || farg.ptd) value argv).map fun w => (dest ++ w.1, w.2) := by
  have htext : Dunkos.intText farg = c.numberText := funext h.intText
  unfold Dunkos.writeFormat Conversion.meaning
  rw [h.data]
  cases hdata : c.data with
  | int =>
      dsimp only
      unfold writeInt
      rw [htext, h.readValue_eq]
      split_ifs <;> simp only [Option.map_map, Option.map_some] <;> rfl
  | chr => simp only [Option.map_map, Function.comp_def]
  | str => simp only [Option.map_map, Function.comp_def]
  | flt => exact absurd hdata c.data_ne_flt
  | esc => rfl

end Conversion.Reading

/-! ### The loop -/

/-- The conversions of a format. -/
def conversions (items : List FormatItem) : ℕ := (items.map FormatItem.argc).sum

theorem conversions_le (items : List FormatItem) : conversions items ≤ (spelled items).length := by
  induction items with
  | nil => exact Nat.le_refl _
  | cons i items ih =>
      have hi : i.argc ≤ i.chars.length := by
        cases i with
        | text s plain => exact Nat.zero_le _
        | conversion c => exact Nat.succ_le_succ (Nat.zero_le _)
      have hcount : conversions (i :: items) = i.argc + conversions items := by simp [conversions]
      have hlen : (spelled (i :: items)).length = i.chars.length + (spelled items).length := by simp [spelled]
      omega

/-- The loop from any record on, by induction on the items; a round takes a conversion and the text before it. -/
theorem vsprintfLoop_meaning (str : BitVec 64 → List Char) (j : Junk) (items : List FormatItem) {rounds : ℕ}
    (hrounds : conversions items < rounds) (farg : FormatArgInfo) (argv : List (BitVec 64)) (dest : List Char) (k : ℕ) :
    vsprintfLoop str j rounds (spelled items) farg argv dest k =
      (meaning str j.value (farg.szt || farg.ptd) k items argv).map
        fun r => ⟨dest ++ r.dest ++ ['\x00'], r.argc, r.argv⟩ := by
  induction items generalizing rounds farg argv dest k with
  | nil =>
      obtain ⟨rounds, rfl⟩ : ∃ n, rounds = n + 1 := ⟨rounds - 1, by omega⟩
      simp [spelled, meaning, vsprintfLoop]
  | cons i items ih =>
      have hcount : conversions (i :: items) = i.argc + conversions items := by simp [conversions]
      have hspelled : spelled (i :: items) = i.chars ++ spelled items := List.flatMap_cons ..
      rw [hcount] at hrounds
      rw [hspelled]
      cases i with
      | text s plain =>
          rw [FormatItem.chars, vsprintfLoop_text _ _ _ _ _ _ plain, ih (by omega), meaning, Option.map_map]
          refine congrFun (congrArg _ (funext fun r => ?_)) _
          simp
      | conversion c =>
          obtain ⟨rounds, rfl⟩ : ∃ n, rounds = n + 1 := ⟨rounds - 1, by omega⟩
          obtain ⟨farg', hread, hloop⟩ := vsprintfLoop_conversion str j farg argv dest k c rounds (spelled items)
          have hrest : conversions items < rounds := by
            simp only [FormatItem.argc] at hrounds
            omega
          rw [FormatItem.chars, hloop, hread.writeFormat_eq, meaning, ← hread.whole]
          cases c.meaning str (farg'.szt || farg'.ptd) (j.value k) argv with
          | none => rfl
          | some w =>
              rw [Option.map_some, Option.bind_some, Option.bind_some, ih hrest, Option.map_map]
              refine congrFun (congrArg _ (funext fun r => ?_)) _
              simp

/-- **What `vsprintf` writes is what its format means**, for every format of complete conversions, every list of slots and
every stack; where the slots run out there is no meaning either. -/
theorem vsprintf_meaning (str : BitVec 64 → List Char) (j : Junk) (items : List FormatItem) (argv : List (BitVec 64)) :
    vsprintf str j (spelled items) argv =
      (meaning str j.value (j.farg.szt || j.farg.ptd) 0 items argv).map fun r => ⟨r.dest ++ ['\x00'], r.argc, r.argv⟩ :=
  vsprintfLoop_meaning str j items (Nat.lt_succ_of_le (conversions_le items)) j.farg argv [] 0

end Dunkos
