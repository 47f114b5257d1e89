import Dunkos.FormatMemory

/-! # Text, strings and characters (`vsprintf` of `xprintf.c`)

A format of literal text and the conversions `%s`, `%c` and `%%` (`TextItem`) prints these items one after the other:
`vsprintf_texts`.  None of them reads what the record keeps from one conversion to the next.  The count is a number; an
`int` holds it for every format of less than 2^32 characters. -/

namespace Dunkos

/-- A character that stands for itself, `%s` with the address of its string, `%c` with its argument, and `%%`. -/
inductive TextItem where
  | lit (c : Char) (plain : c ≠ '%' ∧ c ≠ '\x00')
  | str (x : BitVec 64)
  | chr (x : BitVec 64)
  | esc

namespace TextItem

def chars : TextItem → List Char
  | lit c _ => [c]
  | str _ => ['%', 's']
  | chr _ => ['%', 'c']
  | esc => ['%', '%']

def argv : TextItem → List (BitVec 64)
  | lit _ _ => []
  | str x => [x]
  | chr x => [x]
  | esc => []

/-- A conversion counts. -/
def argc : TextItem → ℕ
  | lit _ _ => 0
  | _ => 1

/-- The string at `x` is `strs x`; of the argument of `%c` the lowest byte is the character. -/
def printed (strs : BitVec 64 → CString) : TextItem → List Char
  | lit c _ => [c]
  | str x => (strs x).chars
  | chr x => [Char.ofNat (x.toNat % 256)]
  | esc => ['%']

theorem plain_chars (i : TextItem) : '\x00' ∉ i.chars := by
  cases i with
  | lit c plain => simpa [chars] using Ne.symm plain.2
  | _ => simp [chars]

theorem s_mem : 's' ∈ convspecs := by decide

theorem c_mem : 'c' ∈ convspecs := by decide

theorem percent_mem : '%' ∈ convspecs := by decide

theorem s_slots (x : BitVec 64) : [x].length = (Conversion.bare 's' s_mem).slots := rfl

theorem c_slots (x : BitVec 64) : [x].length = (Conversion.bare 'c' c_mem).slots := rfl

theorem percent_slots : ([] : List (BitVec 64)).length = (Conversion.bare '%' percent_mem).slots := rfl

theorem plain_singleton {c : Char} (plain : c ≠ '%' ∧ c ≠ '\x00') : ∀ a ∈ [c], a ≠ '%' ∧ a ≠ '\x00' := by
  simpa using plain

/-- The item as a piece of a format. -/
def piece : TextItem → Piece
  | lit c plain => .text [c] (plain_singleton plain)
  | str x => .conversion (.bare 's' s_mem) [x] (s_slots x)
  | chr x => .conversion (.bare 'c' c_mem) [x] (c_slots x)
  | esc => .conversion (.bare '%' percent_mem) [] percent_slots

/-- No number is printed. -/
theorem clean_piece (i : TextItem) : i.piece.Clean := by
  cases i with
  | lit c plain => trivial
  | _ => exact fun hdata => absurd hdata (by decide)

variable (items : List TextItem)

theorem formatOf_pieces : formatOf (items.map piece) = items.flatMap chars := by
  unfold formatOf
  rw [List.flatMap_map]
  congr 1
  funext i
  cases i <;> rfl

theorem argvOf_pieces : argvOf (items.map piece) = items.flatMap argv := by
  unfold argvOf
  rw [List.flatMap_map]
  congr 1
  funext i
  cases i <;> rfl

theorem argcOf_pieces : argcOf (items.map piece) = (items.map argc).sum := by
  unfold argcOf
  rw [List.map_map]
  congr 2
  funext i
  cases i <;> rfl

theorem printed_pieces (strs : BitVec 64 → CString) :
    (items.map piece).flatMap (Piece.printed fun x => (strs x).chars) = items.flatMap (printed strs) := by
  rw [List.flatMap_map]
  congr 1
  funext i
  cases i <;> rfl

end TextItem

theorem plain_flatMap_chars (items : List TextItem) : '\x00' ∉ items.flatMap TextItem.chars := by
  intro h
  obtain ⟨i, -, hi⟩ := List.mem_flatMap.mp h
  exact i.plain_chars hi

/-- The format that the items spell. -/
def textFormat (items : List TextItem) : CString := ⟨items.flatMap TextItem.chars, plain_flatMap_chars items⟩

/-- **Text, strings and characters are printed as they are**: each item writes its own characters, in order, and one
terminator follows.  Every conversion counts and takes its argument, `%%` none, and the arguments behind are left. -/
theorem vsprintf_texts (strs : BitVec 64 → CString) (j : Junk) (items : List TextItem) (rest : List (BitVec 64)) :
    vsprintfMem strs j (textFormat items) (items.flatMap TextItem.argv ++ rest) =
      .ok ⟨items.flatMap (TextItem.printed strs) ++ ['\x00'], (items.map TextItem.argc).sum, rest⟩ := by
  have hclean : ∀ p ∈ items.map TextItem.piece, p.Clean := by
    intro p hp
    obtain ⟨i, -, rfl⟩ := List.mem_map.mp hp
    exact i.clean_piece
  have hcall := vsprintf_of_clean (fun x => (strs x).chars) j hclean rest
  rw [TextItem.formatOf_pieces, TextItem.argvOf_pieces, TextItem.argcOf_pieces, TextItem.printed_pieces] at hcall
  exact vsprintfMem_of_some hcall

end Dunkos
