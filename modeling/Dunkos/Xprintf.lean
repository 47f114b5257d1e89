import Dunkos.Lib.Numeral
import Mathlib.Data.List.Basic

/-! # Formatted output (`xprintf.c`)

`vsprintf` copies literal text and carries out the conversions of a format.  One record `farg` is read
into for all conversions of a call; `fmt_defaults` resets its generic members only.  What the others
hold at the start of a call, and what `value` holds in `write_int` when it is not set, is whatever the
stack held (`Junk`).

The arguments are the 64-bit slots that `va_arg` walks through; a floating argument is in a vector
register and takes none.  Reading behind the last argument, or behind the end of the format, is `none`.
Strings are apart from the destination.  Of the members of the record those of the `FLOAT` half of the
union are left out: no function touches them.

A format is a list of pieces (`Piece`), literal text and complete conversions.  `vsprintf_compositional_iff`
says which pieces print the same text whatever stands before them; `size_conversion_leaks` is a format of
two conversions in which the first one changes what the second one prints. -/

namespace Dunkos

inductive FormatDataType where
  | int
  | chr
  | str
  | flt
  | esc
deriving DecidableEq

inductive FormatAlignment where
  | left
  | right
deriving DecidableEq

structure FormatArgInfo where
  width : ℤ
  precision : ℤ
  pad : Char
  alternateForm : Bool
  align : FormatAlignment
  data : FormatDataType
  size : ℕ
  base : ℕ
  signPad : Char
  szt : Bool
  ptd : Bool
  writeSigned : Bool
  upperDigits : Bool

def fmtDefaults (out : FormatArgInfo) : FormatArgInfo :=
  { out with
    width := 1
    precision := -1
    pad := ' '
    alternateForm := false
    align := .left
    data := .int
    size := 0 }

/-! ### Reading a conversion -/

def flagspecs : List Char := ['#', '0', '-', ' ', '+']
def sizespecs : List Char := ['l', 'h', 'z', 't', 'j', 'L']
def convspecs : List Char :=
  ['d', 'i', 'o', 'u', 'x', 'X', 'e', 'E', 'f', 'F', 'g', 'G', 'a', 'A', 'c', 's', 'p', 'n', '%']

/-- The body of the loop over the flags.  The case of `0` falls through to that of `-`. -/
def setFlag (pfarg : FormatArgInfo) : Char → FormatArgInfo
  | '#' => { pfarg with alternateForm := true }
  | '0' =>
    let pfarg := if pfarg.align ≠ .right then { pfarg with pad := '0' } else pfarg
    { pfarg with pad := ' ', align := .right }
  | '-' => { pfarg with pad := ' ', align := .right }
  | ' ' => if pfarg.signPad ≠ '+' then { pfarg with signPad := ' ' } else pfarg
  | '+' => { pfarg with signPad := '+' }
  | _ => pfarg

def readFlags : List Char → FormatArgInfo → List Char × FormatArgInfo
  | [], pfarg => ([], pfarg)
  | chr :: format, pfarg =>
    if chr ∈ flagspecs then readFlags format (setFlag pfarg chr) else (chr :: format, pfarg)

/-- The switch over the size specifiers, which have `chr` as their first character. -/
def readSize (format : List Char) (pfarg : FormatArgInfo) : Char → List Char × FormatArgInfo
  | 'l' =>
    if format.head? = some 'l' then (format.tail, { pfarg with size := 16 })
    else (format, { pfarg with size := 8 })
  | 'h' =>
    if format.head? = some 'h' then (format.tail, { pfarg with size := 1 })
    else (format, { pfarg with size := 2 })
  | 'z' => (format, { pfarg with size := 8, szt := true })
  | 't' => (format, { pfarg with size := 8, ptd := true })
  | 'L' => (format, { pfarg with size := 16 })
  | _ => (format, pfarg)

/-- The case of `u`, into which those of `p`, `X`, `x` and `o` fall. -/
def convUnsigned (pfarg : FormatArgInfo) : FormatArgInfo :=
  { pfarg with
    data := .int
    writeSigned := false
    precision := if pfarg.precision = -1 then 1 else pfarg.precision
    size := if pfarg.size = 0 then 4 else pfarg.size }

/-- The switch over the conversion specifiers.  There is no case for `d`. -/
def readConv (pfarg : FormatArgInfo) (chr : Char) : FormatArgInfo :=
  let pfarg := { pfarg with upperDigits := false, base := 10 }
  match chr with
  | 'p' => convUnsigned { pfarg with alternateForm := true, upperDigits := true, base := 16 }
  | 'X' => convUnsigned { pfarg with upperDigits := true, base := 16 }
  | 'x' => convUnsigned { pfarg with base := 16 }
  | 'o' => convUnsigned { pfarg with base := 8 }
  | 'u' => convUnsigned pfarg
  | 'i' =>
    { pfarg with
      data := .int
      writeSigned := true
      base := 10
      precision := if pfarg.precision = -1 then 1 else pfarg.precision
      size := if pfarg.size = 0 then 4 else pfarg.size }
  | 'c' => { pfarg with data := .chr }
  | 's' => { pfarg with data := .str }
  | '%' => { pfarg with data := .esc }
  | _ => pfarg

/-- `read_format` behind the flags.  The terminator of the format counts as a size specifier: `strchr`
finds it in every string. -/
def readSpecs (pfarg : FormatArgInfo) : List Char → Option (List Char × FormatArgInfo)
  | [] => none
  | chr :: format =>
    if chr ∈ sizespecs then
      let r := readSize format pfarg chr
      match r.1 with
      | [] => none
      | chr :: format => some (format, readConv r.2 chr)
    else some (format, readConv pfarg chr)

/-- The rest of the format behind the conversion it begins with. -/
def readFormat (format : List Char) (pfarg : FormatArgInfo) : Option (List Char × FormatArgInfo) :=
  let r := readFlags format.tail pfarg
  readSpecs r.2 r.1

/-! ### Writing a conversion -/

/-- The next argument. -/
def vaArg : List (BitVec 64) → Option (BitVec 64 × List (BitVec 64))
  | [] => none
  | x :: argv => some (x, argv)

/-- `va_arg(argv, int)`, as the `unsigned long long` it is assigned to. -/
def intArg (x : BitVec 64) : BitVec 64 := (x.setWidth 32).signExtend 64

/-- What `write_int` reads: `value` stays as it was for a size it does not know. -/
def readValue (value : BitVec 64) (pfarg : FormatArgInfo) (argv : List (BitVec 64)) :
    Option (BitVec 64 × List (BitVec 64)) :=
  if pfarg.szt then vaArg argv
  else if pfarg.ptd then vaArg argv
  else
    match pfarg.size with
    | 1 => (vaArg argv).map (fun r => (intArg r.1 &&& 0xFF, r.2))
    | 2 => (vaArg argv).map (fun r => (intArg r.1 &&& 0xFFFF, r.2))
    | 4 => (vaArg argv).map (fun r => (intArg r.1, r.2))
    | 8 => vaArg argv
    | 16 => vaArg argv
    | _ => some (value, argv)

/-- `1 << (size * 8 - 1)`, the shift of an `int`, which takes its count modulo 32. -/
def signBit (size : ℕ) : BitVec 64 := ((1#32) <<< ((size * 8 + 31) % 32)).signExtend 64

def isNegative (value : BitVec 64) (size : ℕ) : Bool := (value ^^^ signBit size) == 0

/-- `digits[upper_digits][digit]`. -/
def digitChar (upperDigits : Bool) (digit : ℕ) : Char :=
  if digit < 10 then Char.ofNat (48 + digit)
  else if upperDigits then Char.ofNat (55 + digit)
  else Char.ofNat (87 + digit)

/-- The loop that fills `revint`, of which `room` characters are left. -/
def revDigits (upperDigits : Bool) (base : ℕ) : ℕ → ℕ → List Char
  | 0, _ => []
  | room + 1, value =>
    if value = 0 then [] else digitChar upperDigits (value % base) :: revDigits upperDigits base room (value / base)

def revInt (upperDigits : Bool) (base : ℕ) (value : BitVec 64) : List Char :=
  if value ≠ 0 then revDigits upperDigits base 256 value.toNat else ['0']

/-- The character in front of the digits. -/
def signText (pfarg : FormatArgInfo) (negative : Bool) : Char :=
  match pfarg.signPad with
  | ' ' => if negative then '-' else ' '
  | '+' => if negative then '-' else '+'
  | _ => if negative then '-' else pfarg.pad

/-- What `write_int` writes for `value`. -/
def intText (pfarg : FormatArgInfo) (value : BitVec 64) : List Char :=
  let negative := pfarg.writeSigned && isNegative value pfarg.size
  let revint := revInt pfarg.upperDigits pfarg.base value
  let npadchrs := max 0 (pfarg.width - revint.length)
  match pfarg.align with
  | .right => []
  | .left =>
    let hex := pfarg.alternateForm && pfarg.base == 16
    let npadchrs := if hex then npadchrs - 2 else npadchrs
    (if hex then ['0', 'x'] else []) ++ List.replicate (npadchrs - 1).toNat pfarg.pad ++
      (if min npadchrs 1 ≠ 0 ∧ pfarg.writeSigned then [signText pfarg negative] else []) ++ revint.reverse

def writeInt (value : BitVec 64) (dest : List Char) (pfarg : FormatArgInfo) (argv : List (BitVec 64)) :
    Option (List Char × List (BitVec 64)) :=
  (readValue value pfarg argv).map (fun r => (dest ++ intText pfarg r.1, r.2))

section code
variable (str : BitVec 64 → List Char)

/-- The string at `x` is `str x`. -/
def writeFormat (value : BitVec 64) (dest : List Char) (pfarg : FormatArgInfo) (argv : List (BitVec 64)) :
    Option (List Char × List (BitVec 64)) :=
  match pfarg.data with
  | .int => writeInt value dest pfarg argv
  | .chr => (vaArg argv).map (fun r => (dest ++ [Char.ofNat (r.1.toNat % 256)], r.2))
  | .str => (vaArg argv).map (fun r => (dest ++ str r.1, r.2))
  | .flt => some (dest, argv)
  | .esc => some (dest ++ ['%'], argv)

/-- What the stack holds: `farg` before the first conversion, and `value` in each one. -/
structure Junk where
  farg : FormatArgInfo
  value : ℕ → BitVec 64

/-- The bytes written to `dest`, the count returned, and the arguments left. -/
structure Printed where
  dest : List Char
  argc : ℕ
  argv : List (BitVec 64)
deriving DecidableEq

/-- The loop of `vsprintf`, and what is behind it; a round takes two characters of the format or more. -/
def vsprintfLoop (j : Junk) : ℕ → List Char → FormatArgInfo → List (BitVec 64) → List Char → ℕ → Option Printed
  | 0, _, _, _, _, _ => none
  | rounds + 1, fmtStart, farg, argv, dest, argc =>
    let dest := dest ++ fmtStart.takeWhile (· ≠ '%')
    match fmtStart.dropWhile (· ≠ '%') with
    | [] => some ⟨dest ++ ['\x00'], argc, argv⟩
    | fmtEnd =>
      (readFormat fmtEnd (fmtDefaults farg)).bind fun r =>
        (writeFormat str (j.value argc) dest r.2 argv).bind fun w =>
          vsprintfLoop j rounds r.1 r.2 w.2 w.1 (argc + 1)

def vsprintf (j : Junk) (format : List Char) (argv : List (BitVec 64)) : Option Printed :=
  vsprintfLoop str j (format.length + 1) format j.farg argv [] 0

end code

/-! ### Pieces of a format -/

inductive SizeSpec where
  | none
  | l
  | ll
  | h
  | hh
  | z
  | t
  | j
  | L
deriving DecidableEq

namespace SizeSpec

def chars : SizeSpec → List Char
  | none => []
  | l => ['l']
  | ll => ['l', 'l']
  | h => ['h']
  | hh => ['h', 'h']
  | z => ['z']
  | t => ['t']
  | j => ['j']
  | L => ['L']

/-- The size that `read_format` makes of it. -/
def size : SizeSpec → ℕ
  | none => 0
  | l => 8
  | ll => 16
  | h => 2
  | hh => 1
  | z => 8
  | t => 8
  | j => 0
  | L => 16

/-- `read_format` takes `conv` for the conversion specifier behind this size specifier. -/
def Before : SizeSpec → Char → Prop
  | none, conv => conv ∉ flagspecs ∧ conv ∉ sizespecs
  | l, conv => conv ≠ 'l'
  | h, conv => conv ≠ 'h'
  | _, _ => True

end SizeSpec

/-- A complete conversion: flags, a size or none, and the character for the conversion. -/
structure Conversion where
  flags : List Char
  sizespec : SizeSpec
  conv : Char
  flags_mem : ∀ c ∈ flags, c ∈ flagspecs
  conv_mem : conv ∈ convspecs

namespace Conversion

theorem no_flags : ∀ c ∈ ([] : List Char), c ∈ flagspecs := List.forall_mem_nil _

/-- `%` and the character for the conversion. -/
def bare (conv : Char) (h : conv ∈ convspecs) : Conversion := ⟨[], .none, conv, no_flags, h⟩

def chars (c : Conversion) : List Char := '%' :: (c.flags ++ (c.sizespec.chars ++ [c.conv]))

/-- The number of slots that its argument takes. -/
def slots (c : Conversion) : ℕ := if c.conv ∈ ['%', 'e', 'E', 'f', 'F', 'g', 'G', 'a', 'A'] then 0 else 1

def data (c : Conversion) : FormatDataType :=
  if c.conv = 'c' then .chr else if c.conv = 's' then .str else if c.conv = '%' then .esc else .int

/-- The size in the record: without a size specifier, four for the conversions that `read_format` has a case for. -/
def size (c : Conversion) : ℕ :=
  if c.conv ∈ ['p', 'X', 'x', 'o', 'u', 'i'] ∧ c.sizespec.size = 0 then 4 else c.sizespec.size

def align (c : Conversion) : FormatAlignment := if '0' ∈ c.flags ∨ '-' ∈ c.flags then .right else .left

def alternateForm (c : Conversion) : Bool := c.conv = 'p' || decide ('#' ∈ c.flags)

def upperDigits (c : Conversion) : Bool := c.conv = 'p' || c.conv = 'X'

def base (c : Conversion) : ℕ := if c.conv ∈ ['p', 'X', 'x'] then 16 else if c.conv = 'o' then 8 else 10

/-- What `read_format` makes of the conversion, and what it leaves as it was in `stale`. -/
structure Reading (c : Conversion) (stale farg : FormatArgInfo) : Prop where
  data : farg.data = c.data
  size : farg.size = c.size
  szt : farg.szt = (stale.szt || c.sizespec = .z)
  ptd : farg.ptd = (stale.ptd || c.sizespec = .t)
  align : farg.align = c.align
  alternateForm : farg.alternateForm = c.alternateForm
  upperDigits : farg.upperDigits = c.upperDigits
  base : farg.base = c.base
  width : farg.width = 1
  unsigned : farg.base = 16 → farg.writeSigned = false

end Conversion

theorem specs_apart : ∀ c ∈ convspecs, c ∉ flagspecs ∧ c ∉ sizespecs := by
  simp [convspecs, flagspecs, sizespecs]

/-- The flags `-` and `0` align to the right, `#` asks for the alternate form, and nothing but the
padding and the sign changes besides. -/
theorem setFlag_eq (pfarg : FormatArgInfo) {c : Char} (hc : c ∈ flagspecs) :
    ∃ pad signPad, setFlag pfarg c = { pfarg with
      pad := pad
      signPad := signPad
      align := if c = '0' ∨ c = '-' then .right else pfarg.align
      alternateForm := pfarg.alternateForm || decide ('#' = c) } := by
  simp only [flagspecs, List.mem_cons, List.not_mem_nil, or_false] at hc
  rcases hc with rfl | rfl | rfl | rfl | rfl
  · exact ⟨pfarg.pad, pfarg.signPad, by simp [setFlag]⟩
  · refine ⟨' ', pfarg.signPad, ?_⟩
    by_cases h : pfarg.align = .right <;> simp [setFlag, h]
  · exact ⟨' ', pfarg.signPad, by simp [setFlag]⟩
  · by_cases h : pfarg.signPad = '+'
    · refine ⟨pfarg.pad, pfarg.signPad, ?_⟩
      rw [setFlag, if_neg (not_not.mpr h)]
      simp
    · exact ⟨pfarg.pad, ' ', by simp [setFlag, h]⟩
  · exact ⟨pfarg.pad, '+', by simp [setFlag]⟩

theorem readFlags_append (flags rest : List Char) (pfarg : FormatArgInfo) (hflags : ∀ c ∈ flags, c ∈ flagspecs)
    (hrest : ∀ c ∈ rest.head?, c ∉ flagspecs) :
    ∃ pad signPad, readFlags (flags ++ rest) pfarg = (rest, { pfarg with
      pad := pad
      signPad := signPad
      align := if '0' ∈ flags ∨ '-' ∈ flags then .right else pfarg.align
      alternateForm := pfarg.alternateForm || decide ('#' ∈ flags) }) := by
  induction flags generalizing pfarg with
  | nil =>
      refine ⟨pfarg.pad, pfarg.signPad, ?_⟩
      cases rest with
      | nil => simp [readFlags]
      | cons c rest =>
          have hc : c ∉ flagspecs := hrest c rfl
          simp [readFlags, hc]
  | cons c flags ih =>
      rw [List.forall_mem_cons] at hflags
      obtain ⟨pad, signPad, h⟩ := setFlag_eq pfarg hflags.1
      obtain ⟨pad', signPad', h'⟩ := ih (setFlag pfarg c) hflags.2
      refine ⟨pad', signPad', ?_⟩
      rw [List.cons_append, readFlags, if_pos hflags.1, h', h]
      have halign : (if '0' ∈ flags ∨ '-' ∈ flags then FormatAlignment.right
          else if c = '0' ∨ c = '-' then .right else pfarg.align) =
          if '0' ∈ c :: flags ∨ '-' ∈ c :: flags then .right else pfarg.align := by
        simp only [List.mem_cons, eq_comm (a := c)]
        split_ifs <;> tauto
      have halt : (pfarg.alternateForm || decide ('#' = c) || decide ('#' ∈ flags)) =
          (pfarg.alternateForm || decide ('#' ∈ c :: flags)) := by
        simp [Bool.or_assoc]
      simp only [halign, halt]

namespace SizeSpec

theorem head_notMem_flagspecs (size : SizeSpec) {conv : Char} (hconv : size.Before conv) (rest : List Char) :
    ∀ c ∈ (size.chars ++ conv :: rest).head?, c ∉ flagspecs := by
  intro c hc
  cases size <;> simp [chars] at hc <;> subst hc
  · exact hconv.1
  all_goals decide

/-- A size specifier, or none, in front of the conversion specifier. -/
theorem readSpecs_chars (size : SizeSpec) {conv : Char} (hconv : size.Before conv) (rest : List Char)
    (pfarg : FormatArgInfo) (hsize : pfarg.size = 0) :
    readSpecs pfarg (size.chars ++ conv :: rest) = some (rest, readConv { pfarg with
      size := size.size
      szt := pfarg.szt || size = .z
      ptd := pfarg.ptd || size = .t } conv) := by
  cases size with
  | none => simp [chars, SizeSpec.size, readSpecs, hconv.2, ← hsize]
  | l =>
      have hl : ¬ conv = 'l' := hconv
      simp [chars, SizeSpec.size, readSpecs, sizespecs, readSize, hl]
  | h =>
      have hh : ¬ conv = 'h' := hconv
      simp [chars, SizeSpec.size, readSpecs, sizespecs, readSize, hh]
  | _ => simp [chars, SizeSpec.size, readSpecs, sizespecs, readSize, ← hsize]

end SizeSpec

namespace Conversion

/-- The switch over the conversion specifiers, on the record that flags and size leave. -/
theorem reading_readConv (c : Conversion) {stale pfarg : FormatArgInfo} (hdata : pfarg.data = .int)
    (hsize : pfarg.size = c.sizespec.size) (hszt : pfarg.szt = (stale.szt || c.sizespec = .z))
    (hptd : pfarg.ptd = (stale.ptd || c.sizespec = .t)) (halign : pfarg.align = c.align)
    (halt : pfarg.alternateForm = decide ('#' ∈ c.flags)) (hwidth : pfarg.width = 1) :
    c.Reading stale (readConv pfarg c.conv) := by
  obtain ⟨flags, sizespec, conv, hflags, hconv⟩ := c
  dsimp only at *
  unfold readConv
  -- one case for each `case`, and the characters that have none
  split
  all_goals
    exact ⟨by simp_all [convUnsigned, data], by simp_all [convUnsigned, size], by simp_all [convUnsigned],
      by simp_all [convUnsigned], by simp_all [convUnsigned], by simp_all [convUnsigned, alternateForm],
      by simp_all [convUnsigned, upperDigits], by simp_all [convUnsigned, base], by simp_all [convUnsigned],
      by simp_all [convUnsigned]⟩

theorem before (c : Conversion) : c.sizespec.Before c.conv := by
  have hconv := specs_apart c.conv c.conv_mem
  cases c.sizespec with
  | none => exact hconv
  | l => exact fun h => hconv.2 (h ▸ by decide)
  | h => exact fun h => hconv.2 (h ▸ by decide)
  | _ => trivial

/-- The conversion is read to its end, whatever follows. -/
theorem readFormat_chars (c : Conversion) (rest : List Char) (stale : FormatArgInfo) :
    ∃ farg, readFormat (c.chars ++ rest) (fmtDefaults stale) = some (rest, farg) ∧ c.Reading stale farg := by
  have hhead := c.sizespec.head_notMem_flagspecs c.before rest
  obtain ⟨pad, signPad, hflags⟩ := readFlags_append c.flags (c.sizespec.chars ++ c.conv :: rest)
    (fmtDefaults stale) c.flags_mem hhead
  have hchars : (c.chars ++ rest).tail = c.flags ++ (c.sizespec.chars ++ c.conv :: rest) := by
    simp [chars]
  unfold readFormat
  rw [hchars, hflags]
  refine ⟨_, c.sizespec.readSpecs_chars c.before rest _ rfl, ?_⟩
  exact c.reading_readConv rfl rfl rfl rfl rfl (Bool.false_or _) rfl

end Conversion

/-! ### What a conversion writes -/

/-- The number a digit stands for. -/
def digitVal (c : Char) : ℕ := if c.toNat < 58 then c.toNat - 48 else if c.toNat < 71 then c.toNat - 55 else c.toNat - 87

theorem digitVal_digitChar : ∀ (upperDigits : Bool) (d : Fin 16), digitVal (digitChar upperDigits d) = d := by
  decide

/-- The room suffices for a number below `base ^ room`. -/
theorem revDigits_eq (upperDigits : Bool) {base : ℕ} (hbase : 1 < base) (room value : ℕ) (hv : value < base ^ room) :
    revDigits upperDigits base room value = (Nat.digits base value).map (digitChar upperDigits) := by
  induction room generalizing value with
  | zero =>
      rw [Nat.pow_zero, Nat.lt_one_iff] at hv
      rw [hv, revDigits, Nat.digits_zero, List.map_nil]
  | succ room ih =>
      unfold revDigits
      by_cases h : value = 0
      · rw [if_pos h, h, Nat.digits_zero, List.map_nil]
      · have hlt : value / base < base ^ room := by
          rw [Nat.div_lt_iff_lt_mul (Nat.zero_lt_of_lt hbase)]
          rwa [Nat.pow_succ] at hv
        rw [if_neg h, ih _ hlt, Nat.digits_def' hbase (Nat.pos_of_ne_zero h), List.map_cons]

/-- What `revint` holds is the numeral, the last digit first. -/
theorem revInt_reverse (upperDigits : Bool) {base : ℕ} (hbase : 1 < base) (v : BitVec 64) :
    (revInt upperDigits base v).reverse = Numeral.numeral (digitChar upperDigits) base v.toNat := by
  unfold revInt Numeral.numeral Numeral.digitsOf
  by_cases hv : v = 0
  · rw [if_neg (not_not.mpr hv), hv]
    rfl
  · have hlt : v.toNat < base ^ 256 := by
      calc v.toNat < 2 ^ 64 := v.isLt
        _ ≤ 2 ^ 256 := Nat.pow_le_pow_right (by decide) (by decide)
        _ ≤ base ^ 256 := Nat.pow_le_pow_left hbase 256
    have hnat : ¬ v.toNat = 0 := fun h => hv (BitVec.eq_of_toNat_eq h)
    rw [if_pos hv, if_neg hnat, revDigits_eq upperDigits hbase 256 _ hlt, List.map_reverse]

theorem digitVal_of_lt (upperDigits : Bool) {base : ℕ} (hbase : base ≤ 16) :
    ∀ d < base, digitVal (digitChar upperDigits d) = d :=
  fun d hd => digitVal_digitChar upperDigits ⟨d, Nat.lt_of_lt_of_le hd hbase⟩

theorem revInt_inj (upperDigits : Bool) {base : ℕ} (hbase : 2 ≤ base) (hbase' : base ≤ 16) {v w : BitVec 64}
    (h : revInt upperDigits base v = revInt upperDigits base w) : v = w := by
  have hnum := congrArg List.reverse h
  rw [revInt_reverse upperDigits hbase, revInt_reverse upperDigits hbase] at hnum
  exact BitVec.eq_of_toNat_eq (Numeral.numeral_inj hbase (digitVal_of_lt upperDigits hbase') hnum)

theorem revInt_ne_nil (upperDigits : Bool) (base : ℕ) (v : BitVec 64) : 1 ≤ (revInt upperDigits base v).length := by
  unfold revInt
  by_cases hv : v = 0
  · rw [if_neg (not_not.mpr hv)]
    exact Nat.le_refl _
  · have hnat : ¬ v.toNat = 0 := fun h => hv (BitVec.eq_of_toNat_eq h)
    rw [if_pos hv]
    unfold revDigits
    rw [if_neg hnat, List.length_cons]
    exact Nat.succ_le_succ (Nat.zero_le _)

/-- `width` is never read from the format, so there is no padding, and no sign either. -/
theorem intText_eq {pfarg : FormatArgInfo} (hwidth : pfarg.width = 1) (hsign : pfarg.base = 16 → pfarg.writeSigned = false)
    (value : BitVec 64) : intText pfarg value =
      if pfarg.align = .right then [] else
        (if pfarg.alternateForm && pfarg.base == 16 then ['0', 'x'] else []) ++
          (revInt pfarg.upperDigits pfarg.base value).reverse := by
  have hlen := revInt_ne_nil pfarg.upperDigits pfarg.base value
  have hmax : max 0 (pfarg.width - (revInt pfarg.upperDigits pfarg.base value).length) = 0 := by omega
  unfold intText
  dsimp only
  rw [hmax]
  cases halign : pfarg.align with
  | right => rfl
  | left =>
      by_cases hhex : (pfarg.alternateForm && pfarg.base == 16) = true
      · have hb := hsign (by simp at hhex; exact hhex.2)
        simp [hhex, hb]
      · simp [hhex]

namespace Conversion
variable {c : Conversion} {stale farg : FormatArgInfo} {argv : List (BitVec 64)}

/-- What the slot `x` is read as at the size of the conversion. -/
def value (c : Conversion) (x : BitVec 64) : BitVec 64 :=
  match c.size with
  | 1 => intArg x &&& 0xFF
  | 2 => intArg x &&& 0xFFFF
  | 4 => intArg x
  | _ => x

/-- The digits of `v`, and what stands in front of them. -/
def number (c : Conversion) (v : BitVec 64) : List Char :=
  (if c.alternateForm && c.base == 16 then ['0', 'x'] else []) ++ (revInt c.upperDigits c.base v).reverse

/-- What the conversion prints for its own argument. -/
def text (str : BitVec 64 → List Char) (c : Conversion) : List (BitVec 64) → List Char
  | [] => ['%']
  | x :: _ =>
    match c.data with
    | .chr => [Char.ofNat (x.toNat % 256)]
    | .str => str x
    | _ => if c.align = .right then [] else c.number (c.value x)

/-- An integer conversion takes a slot, has a size, and prints nothing or reads its slot as the 64-bit
number that is in it. -/
def Clean (c : Conversion) (argv : List (BitVec 64)) : Prop :=
  c.data = .int → c.slots = 1 ∧ c.size ≠ 0 ∧ (c.align = .right ∨ ∀ x ∈ argv, c.value x = x)

theorem number_inj {v w : BitVec 64} (h : c.number v = c.number w) : v = w := by
  have hbase : 2 ≤ c.base ∧ c.base ≤ 16 := by
    unfold base
    split_ifs <;> decide
  exact revInt_inj _ hbase.1 hbase.2 (List.reverse_injective (List.append_cancel_left h))

theorem Reading.intText (h : c.Reading stale farg) (v : BitVec 64) :
    intText farg v = if c.align = .right then [] else c.number v := by
  rw [intText_eq h.width h.unsigned, h.align, h.alternateForm, h.upperDigits, h.base]
  rfl

/-- The sizes `read_format` knows are those `write_int` knows. -/
theorem size_cases (c : Conversion) : c.size = 0 ∨ c.size = 1 ∨ c.size = 2 ∨ c.size = 4 ∨ c.size = 8 ∨ c.size = 16 := by
  unfold size
  cases c.sizespec <;> simp [SizeSpec.size] <;> tauto

theorem size_of_wide (h : c.sizespec = .z ∨ c.sizespec = .t) : c.size = 8 := by
  unfold size
  rcases h with h | h <;> rw [h] <;> simp [SizeSpec.size]

/-- `z` and `t` read the slot whole. -/
theorem value_of_wide (h : c.sizespec = .z ∨ c.sizespec = .t) (x : BitVec 64) : c.value x = x := by
  unfold value
  rw [size_of_wide h]
  rfl

/-- A conversion with a size reads its slot at this size, or whole if an earlier conversion says so. -/
theorem Reading.readValue_cons (h : c.Reading stale farg) (hsize : c.size ≠ 0) (value x : BitVec 64)
    (rest : List (BitVec 64)) : readValue value farg (x :: rest) =
      some (if farg.szt = true ∨ farg.ptd = true then x else c.value x, rest) := by
  unfold readValue Conversion.value
  rw [h.size]
  by_cases hszt : farg.szt = true
  · simp [hszt, vaArg]
  · by_cases hptd : farg.ptd = true
    · simp [hszt, hptd, vaArg]
    · rcases c.size_cases with hs | hs | hs | hs | hs | hs
      · exact absurd hs hsize
      all_goals simp [hszt, hptd, hs, vaArg]

/-- Without a size it reads its slot only if an earlier conversion says so. -/
theorem Reading.readValue_of_eq (h : c.Reading stale farg) (hsize : c.size = 0) (value : BitVec 64)
    (hszt : farg.szt = false) (hptd : farg.ptd = false) : readValue value farg argv = some (value, argv) := by
  unfold readValue
  rw [h.size, hsize]
  simp [hszt, hptd]

theorem slots_of_data (h : c.data ≠ .int) : c.slots = if c.data = .esc then 0 else 1 := by
  obtain ⟨flags, sizespec, conv, hflags, hconv⟩ := c
  dsimp only [data] at h
  split_ifs at h with h₁ h₂ h₃
  · subst h₁
    rfl
  · subst h₂
    rfl
  · subst h₃
    rfl
  · exact absurd rfl h

theorem data_ne_flt (c : Conversion) : c.data ≠ .flt := by
  unfold data
  split_ifs <;> decide

/-- **A clean conversion prints its text**, and uses up its argument, whatever the record held before. -/
theorem Reading.writeFormat (h : c.Reading stale farg) (hclean : c.Clean argv) (hown : argv.length = c.slots)
    (str : BitVec 64 → List Char) (value : BitVec 64) (dest : List Char) (rest : List (BitVec 64)) :
    writeFormat str value dest farg (argv ++ rest) = some (dest ++ c.text str argv, rest) := by
  unfold Dunkos.writeFormat
  rw [h.data]
  cases hdata : c.data with
  | int =>
      obtain ⟨hslots, hsize, htext⟩ := hclean hdata
      obtain ⟨x, rfl⟩ := List.length_eq_one_iff.mp (hown.trans hslots)
      have hread := h.readValue_cons hsize value x rest
      dsimp only
      unfold writeInt text
      rw [List.cons_append, List.nil_append, hread, Option.map_some, h.intText, hdata]
      rcases htext with hright | hx
      · simp [hright]
      · simp [hx x List.mem_cons_self]
  | chr =>
      have hslots := c.slots_of_data (by rw [hdata]; decide)
      rw [hdata, if_neg (by decide)] at hslots
      obtain ⟨x, rfl⟩ := List.length_eq_one_iff.mp (hown.trans hslots)
      simp [text, vaArg, hdata]
  | str =>
      have hslots := c.slots_of_data (by rw [hdata]; decide)
      rw [hdata, if_neg (by decide)] at hslots
      obtain ⟨x, rfl⟩ := List.length_eq_one_iff.mp (hown.trans hslots)
      simp [text, vaArg, hdata]
  | flt => exact absurd hdata c.data_ne_flt
  | esc =>
      have hslots := c.slots_of_data (by rw [hdata]; decide)
      rw [hdata, if_pos rfl] at hslots
      rw [List.length_eq_zero_iff.mp (hown.trans hslots)]
      rfl

end Conversion

/-! ### Formats -/

/-- Literal text, or a conversion with the slots of its argument. -/
inductive Piece where
  | text (s : List Char) (plain : ∀ c ∈ s, c ≠ '%' ∧ c ≠ '\x00')
  | conversion (c : Conversion) (argv : List (BitVec 64)) (own : argv.length = c.slots)

namespace Piece

def chars : Piece → List Char
  | text s _ => s
  | conversion c _ _ => c.chars

def argv : Piece → List (BitVec 64)
  | text _ _ => []
  | conversion _ argv _ => argv

/-- What the count goes up by. -/
def argc : Piece → ℕ
  | text _ _ => 0
  | conversion _ _ _ => 1

def printed (str : BitVec 64 → List Char) : Piece → List Char
  | text s _ => s
  | conversion c argv _ => c.text str argv

def Clean : Piece → Prop
  | text _ _ => True
  | conversion c argv _ => c.Clean argv

end Piece

/-- The format and the arguments that the pieces spell. -/
def formatOf (ps : List Piece) : List Char := ps.flatMap Piece.chars
def argvOf (ps : List Piece) : List (BitVec 64) := ps.flatMap Piece.argv
def argcOf (ps : List Piece) : ℕ := (ps.map Piece.argc).sum

section run
variable (str : BitVec 64 → List Char) (j : Junk) (farg : FormatArgInfo) (argv : List (BitVec 64)) (dest : List Char)
  (argc : ℕ)

theorem vsprintfLoop_text {s : List Char} (plain : ∀ c ∈ s, c ≠ '%' ∧ c ≠ '\x00') (rounds : ℕ) (format : List Char) :
    vsprintfLoop str j rounds (s ++ format) farg argv dest argc =
      vsprintfLoop str j rounds format farg argv (dest ++ s) argc := by
  have hs : ∀ c ∈ s, decide (c ≠ '%') = true := fun c hc => decide_eq_true (plain c hc).1
  cases rounds with
  | zero => rfl
  | succ rounds =>
      unfold vsprintfLoop
      rw [List.takeWhile_append_of_pos hs, List.dropWhile_append_of_pos hs, List.append_assoc]

/-- At a `%`. -/
theorem vsprintfLoop_percent (rounds : ℕ) (format : List Char) :
    vsprintfLoop str j (rounds + 1) ('%' :: format) farg argv dest argc =
      (readFormat ('%' :: format) (fmtDefaults farg)).bind fun r =>
        (writeFormat str (j.value argc) dest r.2 argv).bind fun w =>
          vsprintfLoop str j rounds r.1 r.2 w.2 w.1 (argc + 1) := by
  have htake : ('%' :: format).takeWhile (· ≠ '%') = [] := rfl
  have hdrop : ('%' :: format).dropWhile (· ≠ '%') = '%' :: format := rfl
  rw [vsprintfLoop, htake, hdrop, List.append_nil]

theorem vsprintfLoop_conversion (c : Conversion) (rounds : ℕ) (format : List Char) :
    ∃ farg', c.Reading farg farg' ∧ vsprintfLoop str j (rounds + 1) (c.chars ++ format) farg argv dest argc =
      (writeFormat str (j.value argc) dest farg' argv).bind fun w =>
        vsprintfLoop str j rounds format farg' w.2 w.1 (argc + 1) := by
  obtain ⟨farg', hread, h⟩ := c.readFormat_chars format farg
  refine ⟨farg', h, ?_⟩
  rw [Conversion.chars, List.cons_append] at hread ⊢
  rw [vsprintfLoop_percent, hread]
  rfl

/-- **The loop over clean pieces.**  Each prints its text, whatever the pieces before it left in the record. -/
theorem vsprintfLoop_pieces (ps : List Piece) (hclean : ∀ p ∈ ps, p.Clean) (rounds : ℕ) (format : List Char)
    (rest : List (BitVec 64)) : ∃ farg', vsprintfLoop str j (rounds + argcOf ps) (formatOf ps ++ format) farg
        (argvOf ps ++ rest) dest argc =
      vsprintfLoop str j rounds format farg' rest (dest ++ ps.flatMap (Piece.printed str)) (argc + argcOf ps) := by
  induction ps generalizing farg dest argc with
  | nil => exact ⟨farg, by simp [formatOf, argvOf, argcOf]⟩
  | cons p ps ih =>
      rw [List.forall_mem_cons] at hclean
      cases p with
      | text s plain =>
          obtain ⟨farg', h⟩ := ih farg (dest ++ s) argc hclean.2
          refine ⟨farg', ?_⟩
          have hargc : argcOf (.text s plain :: ps) = argcOf ps := by simp [argcOf, Piece.argc]
          have hargv : argvOf (.text s plain :: ps) = argvOf ps := by simp [argvOf, Piece.argv]
          have hformat : formatOf (.text s plain :: ps) = s ++ formatOf ps := by simp [formatOf, Piece.chars]
          rw [hargc, hargv, hformat, List.append_assoc, vsprintfLoop_text _ _ _ _ _ _ plain, h]
          simp [Piece.printed]
      | conversion c argv own =>
          have hargc : argcOf (.conversion c argv own :: ps) = argcOf ps + 1 := by
            simp [argcOf, Piece.argc, Nat.add_comm]
          have hargv : argvOf (.conversion c argv own :: ps) = argv ++ argvOf ps := by simp [argvOf, Piece.argv]
          have hformat : formatOf (.conversion c argv own :: ps) = c.chars ++ formatOf ps := by
            simp [formatOf, Piece.chars]
          obtain ⟨farg₁, hread, h₁⟩ := vsprintfLoop_conversion str j farg (argv ++ (argvOf ps ++ rest)) dest argc c
            (rounds + argcOf ps) (formatOf ps ++ format)
          obtain ⟨farg', h⟩ := ih farg₁ (dest ++ c.text str argv) (argc + 1) hclean.2
          refine ⟨farg', ?_⟩
          rw [hargc, hargv, hformat, List.append_assoc, List.append_assoc, ← Nat.add_assoc, h₁,
            hread.writeFormat hclean.1 own str]
          refine h.trans ?_
          simp [Piece.printed, Nat.add_comm, Nat.add_left_comm]

end run

theorem argcOf_le (ps : List Piece) : argcOf ps ≤ (formatOf ps).length := by
  induction ps with
  | nil => exact Nat.le_refl _
  | cons p ps ih =>
      have hp : p.argc ≤ p.chars.length := by
        cases p with
        | text s plain => exact Nat.zero_le _
        | conversion c argv own => exact Nat.succ_le_succ (Nat.zero_le _)
      have hargc : argcOf (p :: ps) = p.argc + argcOf ps := by simp [argcOf]
      have hformat : (formatOf (p :: ps)).length = p.chars.length + (formatOf ps).length := by simp [formatOf]
      omega

/-- A call on clean pieces, with arguments left. -/
theorem vsprintf_of_clean (str : BitVec 64 → List Char) (j : Junk) {ps : List Piece} (hclean : ∀ p ∈ ps, p.Clean)
    (rest : List (BitVec 64)) : vsprintf str j (formatOf ps) (argvOf ps ++ rest) =
      some ⟨ps.flatMap (Piece.printed str) ++ ['\x00'], argcOf ps, rest⟩ := by
  have hle := argcOf_le ps
  obtain ⟨rounds, hrounds⟩ : ∃ rounds, (formatOf ps).length + 1 = rounds + 1 + argcOf ps :=
    ⟨(formatOf ps).length - argcOf ps, by omega⟩
  obtain ⟨farg', h⟩ := vsprintfLoop_pieces str j j.farg [] 0 ps hclean (rounds + 1) [] rest
  rw [List.append_nil, ← hrounds] at h
  unfold vsprintf
  rw [h, vsprintfLoop]
  simp

/-- The call on the format of `ps`, with their arguments, uses these up, writes `t` and the terminator
and returns `n`. -/
def Outputs (str : BitVec 64 → List Char) (j : Junk) (ps : List Piece) (t : List Char) (n : ℕ) : Prop :=
  vsprintf str j (formatOf ps) (argvOf ps) = some ⟨t ++ ['\x00'], n, []⟩

instance (str : BitVec 64 → List Char) (j : Junk) (ps : List Piece) (t : List Char) (n : ℕ) :
    Decidable (Outputs str j ps t n) :=
  inferInstanceAs (Decidable (_ = _))

theorem Outputs.inj {str : BitVec 64 → List Char} {j : Junk} {ps : List Piece} {t t' : List Char} {n n' : ℕ}
    (h : Outputs str j ps t n) (h' : Outputs str j ps t' n') : t = t' := by
  have heq := h.symm.trans h'
  rw [Option.some.injEq, Printed.mk.injEq] at heq
  exact List.append_cancel_right heq.1

/-- Clean pieces print their texts, whatever the stack held. -/
theorem outputs_of_clean (str : BitVec 64 → List Char) (j : Junk) {ps : List Piece} (hclean : ∀ p ∈ ps, p.Clean) :
    Outputs str j ps (ps.flatMap (Piece.printed str)) (argcOf ps) := by
  have h := vsprintf_of_clean str j hclean []
  rwa [List.append_nil] at h

/-- What `vsprintf` is to be on the pieces `f` and `g`: one call for both writes what two calls write, and
every conversion prints a text of its own. -/
structure Compositional (str : BitVec 64 → List Char) (f g : List Piece) : Prop where
  composes : ∀ j j₁ j₂, ∃ t₁ n₁ t₂ n₂, Outputs str j₁ f t₁ n₁ ∧ Outputs str j₂ g t₂ n₂ ∧
    Outputs str j (f ++ g) (t₁ ++ t₂) (n₁ + n₂)
  own : ∃ T : Piece → List Char, (∀ p ∈ f ++ g, ∀ j, ∃ n, Outputs str j [p] (T p) n) ∧
    ∀ j, ∃ n, Outputs str j (f ++ g) ((f ++ g).flatMap T) n

/-- A stack on which the call begins with `szt` set or clear. -/
def Junk.ofSzt (szt : Bool) : Junk :=
  ⟨⟨0, 0, ' ', false, .left, .int, 0, 0, ' ', szt, false, false, false⟩, fun _ => 0⟩

/-- A call with one conversion. -/
theorem outputs_conversion {str : BitVec 64 → List Char} {j : Junk} {c : Conversion} {argv : List (BitVec 64)}
    {own : argv.length = c.slots} {t : List Char} {n : ℕ} (h : Outputs str j [.conversion c argv own] t n) :
    ∃ farg', c.Reading j.farg farg' ∧ writeFormat str (j.value 0) [] farg' argv = some (t, []) := by
  have hformat : formatOf [.conversion c argv own] = c.chars ++ [] := by simp [formatOf, Piece.chars]
  have hargv : argvOf [.conversion c argv own] = argv := by simp [argvOf, Piece.argv]
  obtain ⟨farg', hread, hloop⟩ := vsprintfLoop_conversion str j j.farg argv [] 0 c (c.chars ++ []).length []
  refine ⟨farg', hread, ?_⟩
  unfold Outputs vsprintf at h
  rw [hformat, hargv, hloop] at h
  obtain ⟨w, hw, hend⟩ := Option.bind_eq_some_iff.mp h
  have hlen : (c.chars ++ []).length = (c.flags ++ (c.sizespec.chars ++ [c.conv])).length + 1 := by simp [Conversion.chars]
  rw [hlen, vsprintfLoop] at hend
  simp only [List.takeWhile_nil, List.dropWhile_nil, List.append_nil, Option.some.injEq, Printed.mk.injEq] at hend
  obtain ⟨ht, -, hrest⟩ := hend
  rw [hw, ← List.append_cancel_right ht, ← hrest]

/-- A call with one integer conversion. -/
theorem outputs_int {str : BitVec 64 → List Char} {j : Junk} {c : Conversion} {argv : List (BitVec 64)}
    {own : argv.length = c.slots} {t : List Char} {n : ℕ} (h : Outputs str j [.conversion c argv own] t n)
    (hdata : c.data = .int) : ∃ farg' v, c.Reading j.farg farg' ∧
      readValue (j.value 0) farg' argv = some (v, []) ∧ t = if c.align = .right then [] else c.number v := by
  obtain ⟨farg', hread, hw⟩ := outputs_conversion h
  unfold writeFormat at hw
  rw [hread.data, hdata] at hw
  obtain ⟨⟨v, rest⟩, hvalue, heq⟩ := Option.map_eq_some_iff.mp hw
  rw [List.nil_append, Prod.mk.injEq] at heq
  obtain ⟨ht, rfl⟩ := heq
  exact ⟨farg', v, hread, hvalue, by rw [← ht, hread.intText]⟩

namespace Conversion
variable {c : Conversion} {stale farg : FormatArgInfo} {argv : List (BitVec 64)}

/-- Where an earlier conversion has set `szt`, the slot is read whole. -/
theorem readValue_of_szt (h : farg.szt = true) {value v : BitVec 64}
    (hread : readValue value farg argv = some (v, [])) : argv = [v] := by
  unfold readValue at hread
  rw [if_pos h] at hread
  cases argv with
  | nil => cases hread
  | cons x rest =>
      rw [vaArg, Option.some.injEq, Prod.mk.injEq] at hread
      rw [hread.1, hread.2]

/-- Where no earlier conversion has, it is read at the size of the conversion, which must have one. -/
theorem Reading.value_of_clear (h : c.Reading stale farg) (hszt : stale.szt = false) (hptd : stale.ptd = false)
    {value x v : BitVec 64} (hread : readValue value farg [x] = some (v, [])) : c.size ≠ 0 ∧ v = c.value x := by
  by_cases hwide : c.sizespec = .z ∨ c.sizespec = .t
  · have hsize : c.size ≠ 0 := by
      rw [size_of_wide hwide]
      decide
    rw [h.readValue_cons hsize, value_of_wide hwide, ite_self, Option.some.injEq, Prod.mk.injEq] at hread
    rw [value_of_wide hwide]
    exact ⟨hsize, hread.1.symm⟩
  · rw [not_or] at hwide
    have hszt' : farg.szt = false := by rw [h.szt, hszt, decide_eq_false hwide.1, Bool.or_false]
    have hptd' : farg.ptd = false := by rw [h.ptd, hptd, decide_eq_false hwide.2, Bool.or_false]
    have hsize : c.size ≠ 0 := by
      intro hsize
      rw [h.readValue_of_eq hsize _ hszt' hptd', Option.some.injEq, Prod.mk.injEq] at hread
      cases hread.2
    rw [h.readValue_cons hsize, hszt', hptd'] at hread
    simp at hread
    exact ⟨hsize, hread.symm⟩

/-- A conversion that prints the same text on every stack, and uses up its argument, is clean: on a stack
that begins with `szt` it reads its slot whole, and on the other it reads it at its size. -/
theorem clean_of_outputs {str : BitVec 64 → List Char} {own : argv.length = c.slots} {t : List Char}
    (h : ∀ j, ∃ n, Outputs str j [.conversion c argv own] t n) : c.Clean argv := by
  intro hdata
  obtain ⟨n₁, h₁⟩ := h (Junk.ofSzt true)
  obtain ⟨n₂, h₂⟩ := h (Junk.ofSzt false)
  obtain ⟨farg₁, x, hr₁, hread₁, ht₁⟩ := outputs_int h₁ hdata
  obtain ⟨farg₂, v, hr₂, hread₂, ht₂⟩ := outputs_int h₂ hdata
  have hszt : farg₁.szt = true := by
    rw [hr₁.szt]
    rfl
  have hargv := readValue_of_szt hszt hread₁
  subst hargv
  obtain ⟨hsize, hv⟩ := hr₂.value_of_clear rfl rfl hread₂
  refine ⟨own.symm, hsize, ?_⟩
  by_cases halign : c.align = .right
  · exact .inl halign
  · right
    intro y hy
    rw [List.mem_singleton] at hy
    rw [if_neg halign] at ht₁ ht₂
    rw [hy, ← hv]
    exact number_inj (ht₂.symm.trans ht₁)

end Conversion

/-- **Which formats are compositional**: those whose pieces are clean. -/
theorem vsprintf_compositional_iff (str : BitVec 64 → List Char) (f g : List Piece) :
    Compositional str f g ↔ ∀ p ∈ f ++ g, p.Clean := by
  constructor
  · rintro ⟨-, T, hT, -⟩ p hp
    cases p with
    | text s plain => trivial
    | conversion c argv own => exact Conversion.clean_of_outputs (hT _ hp)
  · intro hclean
    have hf : ∀ p ∈ f, p.Clean := fun p hp => hclean p (List.mem_append_left g hp)
    have hg : ∀ p ∈ g, p.Clean := fun p hp => hclean p (List.mem_append_right f hp)
    refine ⟨fun j j₁ j₂ => ?_, Piece.printed str, fun p hp j => ?_, fun j => ⟨_, outputs_of_clean str j hclean⟩⟩
    · have hfg := outputs_of_clean str j hclean
      have hargc : argcOf (f ++ g) = argcOf f + argcOf g := by simp [argcOf]
      rw [List.flatMap_append, hargc] at hfg
      exact ⟨_, _, _, _, outputs_of_clean str j₁ hf, outputs_of_clean str j₂ hg, hfg⟩
    · have hp' : ∀ q ∈ [p], q.Clean := fun q hq => hclean q (List.mem_singleton.mp hq ▸ hp)
      have hone := outputs_of_clean str j hp'
      rw [List.flatMap_singleton] at hone
      exact ⟨_, hone⟩

/-- `%i` prints `18446744073709551615` for minus one, which a caller passes in the lower half of a slot, in
a call of its own, and `4294967295` behind `%zu`: `szt` is still set. -/
theorem size_conversion_leaks :
    let f : List Piece := [.conversion ⟨[], .z, 'u', by simp, by simp [convspecs]⟩ [1] rfl]
    let g : List Piece := [.conversion ⟨[], .none, 'i', by simp, by simp [convspecs]⟩ [0xFFFFFFFF] rfl]
    let str : BitVec 64 → List Char := fun _ => []
    let j := Junk.ofSzt false
    Outputs str j f "1".toList 1 ∧ Outputs str j g "18446744073709551615".toList 1 ∧
      Outputs str j (f ++ g) "14294967295".toList 2 ∧ ¬ Compositional str f g := by
  intro f g str j
  have hf : Outputs str j f "1".toList 1 := by decide +kernel
  have hg : Outputs str j g "18446744073709551615".toList 1 := by decide +kernel
  have hfg : Outputs str j (f ++ g) "14294967295".toList 2 := by decide +kernel
  refine ⟨hf, hg, hfg, fun hcomp => ?_⟩
  obtain ⟨t₁, n₁, t₂, n₂, h₁, h₂, h⟩ := hcomp.composes j j j
  rw [h₁.inj hf, h₂.inj hg] at h
  exact absurd (h.inj hfg) (by decide)

end Dunkos
