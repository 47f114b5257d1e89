import Dunkos.Directory
import Dunkos.Lib.Reach
import Mathlib.Data.List.Induction

/-! # The console (`console.c`, `puts.c`)

`write_console` keeps line and cell in local variables while `newline`, which it calls for a line that is full and for a tab
behind the last column, moves the cursor of the frame; at the end the locals are put back over it.  A line that is full
leaves the local cell behind the last column, and no line is taken back when the screen has scrolled.  `console_safe` says
which runs stay on the screen, and `chunking` when a text may be written in two calls. -/

namespace Dunkos

open Function Transition

def maxCells : ℕ := 160

def maxLines : ℕ := 50

def charWidth : ℕ := 2

/-- `vga_buffer`, and the indices written so far. -/
structure Screen where
  vga : ℕ → Byte
  written : List ℕ

/-- The screen and the current frame, which is always the first. -/
structure Console where
  screen : Screen
  line : ℕ
  cell : ℕ
  enableScrolling : Bool

namespace Screen

/-- `vga_buffer[index] = value`. -/
def poke (s : Screen) (index : ℕ) (value : Byte) : Screen := ⟨update s.vga index value, index :: s.written⟩

/-- One round of the loop in `clear_console`, and of the second in `scroll_down`. -/
def blank (s : Screen) (i : ℕ) : Screen := (s.poke i 0x20).poke (i + 1) 0x00

def clearConsole (s : Screen) : Screen := (List.range (maxCells * maxLines / 2)).foldl (fun s k => s.blank (2 * k)) s

/-- One round of the first loop in `scroll_down`. -/
def raise (s : Screen) (i : ℕ) : Screen := (s.poke i (s.vga (i + maxCells))).poke (i + 1) 0x0F

def scrollDown (s : Screen) : Screen :=
  let s := (List.range (maxCells * (maxLines - 1) / 2)).foldl (fun s k => s.raise (2 * k)) s
  (List.range (maxCells / 2)).foldl (fun s k => s.blank (maxCells * (maxLines - 1) + 2 * k)) s

end Screen

namespace Console

def init (vga : ℕ → Byte) : Console := ⟨(Screen.mk vga []).clearConsole, 0, 0, true⟩

def newline (c : Console) : Console :=
  let line := c.line + 1
  let c := { c with cell := 0 }
  if line = maxLines then
    if c.enableScrolling then { c with screen := c.screen.scrollDown, line := line } else { c with line := 0 }
  else { c with line := line }

/-- The local variables of `write_console`, with the console. -/
structure Writing where
  con : Console
  line : ℕ
  cell : ℕ

/-- The `switch`. -/
def writeChr (w : Writing) (chr : Byte) : Writing :=
  let index := w.line * maxCells + w.cell
  if chr = 0x09 then
    let cell := (w.cell / 8 + 1) * 8
    let newcell := cell % maxCells
    if cell ≥ maxCells then ⟨w.con.newline, w.line, newcell⟩ else { w with cell := cell }
  else if chr = 0x0a then { w with line := w.line + 1, cell := 0 }
  else if chr = 0x0d then { w with cell := 0 }
  else
    let con := { w.con with screen := (w.con.screen.poke index chr).poke (index + 1) 0x0F }
    let cell := w.cell + charWidth
    ⟨if cell = maxCells then con.newline else con, w.line, cell⟩

/-- One round of the loop. -/
def writeByte (w : Writing) (chr : Byte) : Writing :=
  let w := writeChr w chr
  if w.line = maxLines then
    if w.con.enableScrolling then { w with con := { w.con with screen := w.con.screen.scrollDown } }
    else { w with line := 0 }
  else w

/-- `write_console`, which returns `count`. -/
def writeConsole (c : Console) (buf : List Byte) : Console :=
  let w := buf.foldl writeByte ⟨c, c.line, c.cell⟩
  { w.con with line := w.line, cell := w.cell }

/-- `puts`, for the characters before the null byte. -/
def puts (c : Console) (s : List Byte) : Console := (c.writeConsole s).newline

def putchar (c : Console) (ch : BitVec 32) : Console := c.writeConsole [ch.setWidth 8]

end Console

inductive ConsoleOp where
  | writeConsole (buf : List Byte)
  | newline
  | puts (s : List Byte)
  | putchar (ch : BitVec 32)

def ConsoleOp.step (c : Console) : ConsoleOp → Option Console
  | writeConsole buf => some (c.writeConsole buf)
  | newline => some c.newline
  | puts s => some (c.puts s)
  | putchar ch => some (c.putchar ch)

/-! ### The columns of a text -/

/-- Not a tab, not the end of a line. -/
def Printable (chr : Byte) : Prop := chr ≠ 0x09 ∧ chr ≠ 0x0a ∧ chr ≠ 0x0d

instance (chr : Byte) : Decidable (Printable chr) := inferInstanceAs (Decidable (_ ∧ _))

/-- The column behind a character. -/
def column (cell : ℕ) (chr : Byte) : ℕ :=
  if chr = 0x09 then (cell / 8 + 1) * 8 % maxCells else if chr = 0x0a ∨ chr = 0x0d then 0 else cell + charWidth

/-- The character makes `write_console` call `newline`. -/
def Wraps (cell : ℕ) (chr : Byte) : Prop :=
  (chr = 0x09 ∧ (cell / 8 + 1) * 8 ≥ maxCells) ∨ (Printable chr ∧ cell + charWidth = maxCells)

instance (cell : ℕ) (chr : Byte) : Decidable (Wraps cell chr) := inferInstanceAs (Decidable (_ ∨ _))

/-- How often a text does. -/
def wraps : ℕ → List Byte → ℕ
  | _, [] => 0
  | cell, chr :: buf => (if Wraps cell chr then 1 else 0) + wraps (column cell chr) buf

/-- A text that fills no line and ends no line at the bottom of the screen, when it begins at a place. -/
def Fits : ℕ → ℕ → List Byte → Prop
  | _, _, [] => True
  | line, cell, chr :: buf => (Printable chr → cell + charWidth < maxCells) ∧ (chr = 0x0a → line + 1 < maxLines) ∧
      Fits (if chr = 0x0a then line + 1 else line) (column cell chr) buf

/-- The call fills no line, and ends no line at the bottom of the screen. -/
def ConsoleOp.Fits (c : Console) : ConsoleOp → Prop
  | writeConsole buf => Dunkos.Fits c.line c.cell buf
  | newline => c.line + 1 < maxLines
  | puts s => Dunkos.Fits c.line c.cell s ∧ c.line + s.count 0x0a + 1 < maxLines
  | putchar ch => Dunkos.Fits c.line c.cell [ch.setWidth 8]

/-- Every index written so far lies below `b`. -/
def Screen.Below (b : ℕ) (s : Screen) : Prop := ∀ i ∈ s.written, i < b

/-- What is to hold after each call. -/
structure Console.Safe (c : Console) : Prop where
  written : c.screen.Below (maxCells * maxLines)
  line : c.line < maxLines
  cell : c.cell < maxCells
  even : c.cell % 2 = 0

/-! ### Writing to the screen -/

section
variable {s : Screen} {b i : ℕ}

theorem Screen.Below.poke (h : s.Below b) (hi : i < b) (value : Byte) : (s.poke i value).Below b := by
  intro j hj
  rcases List.mem_cons.mp hj with rfl | hj
  · exact hi
  · exact h j hj

theorem Screen.Below.blank (h : s.Below b) (hi : i + 1 < b) : (s.blank i).Below b :=
  (h.poke (Nat.lt_of_succ_lt hi) _).poke hi _

theorem Screen.Below.raise (h : s.Below b) (hi : i + 1 < b) : (s.raise i).Below b :=
  (h.poke (Nat.lt_of_succ_lt hi) _).poke hi _

theorem Screen.Below.foldl {f : Screen → ℕ → Screen} {n : ℕ} (h : s.Below b)
    (hf : ∀ s k, k < n → s.Below b → (f s k).Below b) : ((List.range n).foldl f s).Below b :=
  List.foldlRecOn (List.range n) f h fun s hs k hk => hf s k (List.mem_range.mp hk) hs

theorem Screen.Below.clearConsole (h : s.Below (maxCells * maxLines)) : s.clearConsole.Below (maxCells * maxLines) :=
  h.foldl fun s k hk hs => hs.blank (by unfold maxCells maxLines at *; omega)

/-- Scrolling stays on the screen. -/
theorem Screen.Below.scrollDown (h : s.Below (maxCells * maxLines)) : s.scrollDown.Below (maxCells * maxLines) := by
  refine Screen.Below.foldl (Screen.Below.foldl h fun s k hk hs => hs.raise ?_) fun s k hk hs => hs.blank ?_
  · unfold maxCells maxLines at *
    omega
  · unfold maxCells maxLines at *
    omega

end

namespace Console

section
variable {c : Console} {w : Writing} {chr : Byte} {buf : List Byte}

@[simp] theorem newline_cell (c : Console) : c.newline.cell = 0 := by
  unfold newline
  dsimp only
  split_ifs <;> rfl

@[simp] theorem newline_enableScrolling (c : Console) : c.newline.enableScrolling = c.enableScrolling := by
  unfold newline
  dsimp only
  split_ifs <;> rfl

theorem newline_screen (h : c.enableScrolling = true) :
    c.newline.screen = if c.line + 1 = maxLines then c.screen.scrollDown else c.screen := by
  unfold newline
  simp only [h, if_true]
  split_ifs <;> rfl

theorem newline_line (h : c.enableScrolling = true) : c.newline.line = c.line + 1 := by
  unfold newline
  simp only [h, if_true]
  split_ifs <;> rfl

theorem newline_below (h : c.screen.Below (maxCells * maxLines)) : c.newline.screen.Below (maxCells * maxLines) := by
  unfold newline
  dsimp only
  split_ifs
  · exact h.scrollDown
  · exact h
  · exact h

/-- What the character leaves on the screen. -/
def glyph (w : Writing) (chr : Byte) : Screen :=
  if Printable chr then
    (w.con.screen.poke (w.line * maxCells + w.cell) chr).poke (w.line * maxCells + w.cell + 1) 0x0F
  else w.con.screen

/-- The console before the call of `newline`, if there is one. -/
def drawn (w : Writing) (chr : Byte) : Console := { w.con with screen := glyph w chr }

def moved (w : Writing) (chr : Byte) : Console := if Wraps w.cell chr then (drawn w chr).newline else drawn w chr

/-- The local line behind a character. -/
def row (line : ℕ) (chr : Byte) : ℕ := if chr = 0x0a then line + 1 else line

/-- Line feeds are counted as they come. -/
theorem row_add_count (line : ℕ) (chr : Byte) (buf : List Byte) :
    row line chr + buf.count 0x0a = line + (chr :: buf).count 0x0a := by
  rw [List.count_cons, row]
  by_cases hchr : chr = 0x0a
  · simp only [hchr, if_true, beq_self_eq_true]
    omega
  · simp only [hchr, if_false, beq_iff_eq]
    omega

/-- **The effect of a character**: its glyph, a call of `newline`, and the local cursor. -/
theorem writeChr_eq (w : Writing) (chr : Byte) :
    writeChr w chr = ⟨moved w chr, row w.line chr, column w.cell chr⟩ := by
  unfold writeChr moved row drawn glyph
  dsimp only
  by_cases htab : chr = 0x09
  · subst htab
    have hprint : ¬ Printable 0x09 := by decide
    have hnl : ¬ (0x09 : Byte) = 0x0a := by decide
    simp only [Wraps, column, hprint, hnl, if_true, if_false, true_and, false_and, or_false]
    split_ifs with hwrap
    · rfl
    · rw [Nat.mod_eq_of_lt (Nat.lt_of_not_le hwrap)]
  · by_cases hnl : chr = 0x0a
    · subst hnl
      simp [Wraps, column, Printable]
    · by_cases hcr : chr = 0x0d
      · subst hcr
        simp [Wraps, column, Printable]
      · have hprint : Printable chr := ⟨htab, hnl, hcr⟩
        simp only [Wraps, column, hprint, htab, hnl, hcr, if_true, if_false, true_and, false_and, false_or, or_self]

/-- The local cursor and the screen. -/
structure Writing.OnScreen (w : Writing) : Prop where
  below : w.con.screen.Below (maxCells * maxLines)
  line : w.line < maxLines
  cell : w.cell < maxCells
  even : w.cell % 2 = 0

theorem column_lt {cell : ℕ} (h : Printable chr → cell + charWidth < maxCells) :
    column cell chr < maxCells := by
  unfold column
  split_ifs with htab hend
  · exact Nat.mod_lt _ (by decide)
  · decide
  · exact h ⟨htab, fun hnl => hend (.inl hnl), fun hcr => hend (.inr hcr)⟩

theorem column_even {cell : ℕ} (h : cell % 2 = 0) : column cell chr % 2 = 0 := by
  unfold column charWidth maxCells
  split_ifs <;> omega

theorem Writing.OnScreen.glyph (h : w.OnScreen) : (Console.glyph w chr).Below (maxCells * maxLines) := by
  have hlast : w.line * maxCells + w.cell + 1 < maxCells * maxLines := by
    have hline := h.line
    have hlt := h.cell
    have heven := h.even
    unfold maxCells maxLines at *
    omega
  unfold Console.glyph
  split_ifs
  · exact (h.below.poke (Nat.lt_of_succ_lt hlast) _).poke hlast _
  · exact h.below

/-- **A byte that fits** keeps the cursor on the screen. -/
theorem Writing.OnScreen.writeByte (h : w.OnScreen) (hprint : Printable chr → w.cell + charWidth < maxCells)
    (hnl : chr = 0x0a → w.line + 1 < maxLines) : (writeByte w chr).OnScreen ∧
      (Console.writeByte w chr).line = row w.line chr ∧ (Console.writeByte w chr).cell = column w.cell chr := by
  have hline : (writeChr w chr).line < maxLines := by
    rw [writeChr_eq]
    dsimp only [row]
    split_ifs with hchr
    · exact hnl hchr
    · exact h.line
  have heq : Console.writeByte w chr = writeChr w chr := if_neg (Nat.ne_of_lt hline)
  rw [heq]
  rw [writeChr_eq] at hline ⊢
  refine ⟨⟨?_, hline, column_lt hprint, column_even h.even⟩, rfl, rfl⟩
  dsimp only [moved]
  split_ifs
  · exact newline_below h.glyph
  · exact h.glyph

/-- A text that fits, by induction on the text. -/
theorem Writing.OnScreen.foldl (h : w.OnScreen) (hfits : Fits w.line w.cell buf) :
    (buf.foldl Console.writeByte w).OnScreen ∧ (buf.foldl Console.writeByte w).line = w.line + buf.count 0x0a := by
  induction buf generalizing w with
  | nil => exact ⟨h, rfl⟩
  | cons chr buf ih =>
      obtain ⟨hprint, hnl, hrest⟩ := hfits
      obtain ⟨hbyte, hline, hcell⟩ := h.writeByte hprint hnl
      obtain ⟨hall, hend⟩ := ih hbyte (by rw [hline, hcell]; exact hrest)
      refine ⟨hall, ?_⟩
      rw [List.foldl_cons, hend, hline, row_add_count]

theorem Safe.writeConsole (h : c.Safe) (hfits : Fits c.line c.cell buf) :
    (c.writeConsole buf).Safe ∧ (c.writeConsole buf).line = c.line + buf.count 0x0a := by
  have hstart : Writing.OnScreen ⟨c, c.line, c.cell⟩ := ⟨h.written, h.line, h.cell, h.even⟩
  obtain ⟨hend, hline⟩ := hstart.foldl hfits
  exact ⟨⟨hend.below, hend.line, hend.cell, hend.even⟩, hline⟩

theorem Safe.newline (h : c.Safe) (hline : c.line + 1 < maxLines) : c.newline.Safe := by
  have heq : c.newline = { c with line := c.line + 1, cell := 0 } := if_neg (Nat.ne_of_lt hline)
  rw [heq]
  exact ⟨h.written, hline, Nat.succ_pos _, rfl⟩

theorem Safe.step {t : Console} {op : ConsoleOp} (h : c.Safe) (hfits : op.Fits c) (hs : op.step c = some t) : t.Safe := by
  cases op with
  | writeConsole buf =>
      obtain rfl := Option.some.inj hs
      exact (h.writeConsole hfits).1
  | newline =>
      obtain rfl := Option.some.inj hs
      exact h.newline hfits
  | puts s =>
      obtain rfl := Option.some.inj hs
      obtain ⟨hsafe, hline⟩ := h.writeConsole hfits.1
      exact hsafe.newline (by rw [hline]; exact hfits.2)
  | putchar ch =>
      obtain rfl := Option.some.inj hs
      exact (h.writeConsole hfits).1

theorem init_safe (vga : ℕ → Byte) : (init vga).Safe := by
  have hbelow : (Screen.mk vga []).Below (maxCells * maxLines) := fun i hi => absurd hi List.not_mem_nil
  have hscreen : (init vga).screen = (Screen.mk vga []).clearConsole := by rw [init]
  have hline : (init vga).line = 0 := by rw [init]
  have hcell : (init vga).cell = 0 := by rw [init]
  constructor
  · rw [hscreen]
    exact hbelow.clearConsole
  · rw [hline]
    decide
  · rw [hcell]
    decide
  · rw [hcell]

/-- The local cell does not depend on the screen. -/
theorem foldl_cell (buf : List Byte) (w : Writing) : (buf.foldl writeByte w).cell = buf.foldl column w.cell := by
  induction buf generalizing w with
  | nil => rfl
  | cons chr buf ih =>
      have hcell : (writeByte w chr).cell = column w.cell chr := by
        refine Eq.trans ?_ (congrArg Writing.cell (writeChr_eq w chr))
        unfold writeByte
        dsimp only
        split_ifs <;> rfl
      rw [List.foldl_cons, ih, hcell, List.foldl_cons]

theorem writeConsole_cell (c : Console) (buf : List Byte) : (c.writeConsole buf).cell = buf.foldl column c.cell :=
  foldl_cell buf _

end

/-- **The cursor** stays on the screen in every run whose texts fit. -/
theorem console_safe (vga : ℕ → Byte) {c : Console} (h : Reach ConsoleOp.step (fun c op => op.Fits c) (init vga) c) :
    c.Safe :=
  h.invariant (init_safe vga) fun _ _ _ hc hfits hs => hc.step hfits hs

instance decFits : ∀ line cell buf, Decidable (Fits line cell buf)
  | _, _, [] => isTrue trivial
  | line, cell, chr :: buf =>
      have := decFits (if chr = 0x0a then line + 1 else line) (column cell chr) buf
      inferInstanceAs (Decidable ((_ → _) ∧ (_ → _) ∧ _))

instance (c : Console) : ∀ op : ConsoleOp, Decidable (op.Fits c)
  | .writeConsole buf => decFits c.line c.cell buf
  | .newline => inferInstanceAs (Decidable (_ < _))
  | .puts _ => inferInstanceAs (Decidable (_ ∧ _))
  | .putchar ch => decFits c.line c.cell [ch.setWidth 8]

/-- A line of text. -/
theorem console_safe_hello : (((init fun _ => 0).puts [0x48, 0x69]).putchar 0x09).Safe :=
  console_safe (fun _ => 0) ((Reach.start.next (a := .puts [0x48, 0x69]) (by decide) rfl).next
    (a := .putchar 0x09) (by decide) rfl)

theorem foldl_column_replicate {chr : Byte} (h : Printable chr) (n cell : ℕ) :
    (List.replicate n chr).foldl column cell = cell + charWidth * n := by
  induction n generalizing cell with
  | zero => rfl
  | succ n ih =>
      have hend : ¬ (chr = 0x0a ∨ chr = 0x0d) := fun hend => hend.elim h.2.1 h.2.2
      rw [List.replicate_succ, List.foldl_cons, ih, column, if_neg h.1, if_neg hend, Nat.mul_succ]
      omega

/-- A full line: the cell is behind the last column. -/
theorem full_line_unsafe : ((init fun _ => 0).writeConsole (List.replicate 80 0x78)).cell = maxCells ∧
    ¬ ((init fun _ => 0).writeConsole (List.replicate 80 0x78)).Safe := by
  have hcell : ((init fun _ => 0).writeConsole (List.replicate 80 0x78)).cell = maxCells := by
    rw [writeConsole_cell, foldl_column_replicate (by decide), init]
    rfl
  exact ⟨hcell, fun h => absurd h.cell (by rw [hcell]; exact Nat.lt_irrefl _)⟩

/-! ### Texts in two parts -/

/-- The consoles show the same, and scroll. -/
structure SameScreen (c d : Console) : Prop where
  screen : c.screen = d.screen
  left : c.enableScrolling = true
  right : d.enableScrolling = true

/-- When the frames are at lines `l` and `m`, the next `n` calls of `newline` scroll both or none. -/
def ScrollAlike (l m n : ℕ) : Prop := l = m ∨ ∀ k, 1 ≤ k → k ≤ n → l + k ≠ maxLines ∧ m + k ≠ maxLines

section
variable {c d : Console} {line cell : ℕ} {chr : Byte}

theorem ScrollAlike.step {l m i n : ℕ} (h : ScrollAlike l m (i + n)) : ScrollAlike (l + i) (m + i) n := by
  rcases h with rfl | h
  · exact .inl rfl
  · refine .inr fun k hk hn => ?_
    have hik := h (i + k) (by omega) (by omega)
    rw [Nat.add_assoc, Nat.add_assoc]
    exact hik

theorem SameScreen.newline (h : SameScreen c d) (hs : ScrollAlike c.line d.line 1) : SameScreen c.newline d.newline := by
  refine ⟨?_, (newline_enableScrolling c).trans h.left, (newline_enableScrolling d).trans h.right⟩
  rw [newline_screen h.left, newline_screen h.right, h.screen]
  rcases hs with hs | hs
  · rw [hs]
  · obtain ⟨hc, hd⟩ := hs 1 le_rfl le_rfl
    rw [if_neg hc, if_neg hd]

/-- The lines that a character moves the frame down. -/
def frameStep (cell : ℕ) (chr : Byte) : ℕ := if Wraps cell chr then 1 else 0

theorem moved_enableScrolling (w : Writing) (chr : Byte) : (moved w chr).enableScrolling = w.con.enableScrolling := by
  unfold moved
  split_ifs
  · exact newline_enableScrolling _
  · rfl

theorem moved_line {w : Writing} (h : w.con.enableScrolling = true) (chr : Byte) :
    (moved w chr).line = w.con.line + frameStep w.cell chr := by
  have hdrawn : (drawn w chr).enableScrolling = true := h
  unfold moved frameStep
  split_ifs
  · exact newline_line hdrawn
  · rfl

theorem SameScreen.moved (h : SameScreen c d) (hs : ScrollAlike c.line d.line (frameStep cell chr)) :
    SameScreen (moved ⟨c, line, cell⟩ chr) (moved ⟨d, line, cell⟩ chr) := by
  have hdrawn : SameScreen (drawn ⟨c, line, cell⟩ chr) (drawn ⟨d, line, cell⟩ chr) := by
    refine ⟨?_, h.left, h.right⟩
    unfold drawn glyph
    dsimp only
    rw [h.screen]
  unfold Console.moved
  unfold frameStep at hs
  split_ifs at hs ⊢
  · exact hdrawn.newline hs
  · exact hdrawn

/-- The console after the scrolling that the local line asks for. -/
def scrolled (c : Console) (line : ℕ) : Console :=
  if line = maxLines then { c with screen := c.screen.scrollDown } else c

@[simp] theorem scrolled_line (c : Console) (line : ℕ) : (scrolled c line).line = c.line := by
  unfold scrolled
  split_ifs <;> rfl

@[simp] theorem scrolled_enableScrolling (c : Console) (line : ℕ) :
    (scrolled c line).enableScrolling = c.enableScrolling := by
  unfold scrolled
  split_ifs <;> rfl

theorem SameScreen.scrolled (h : SameScreen c d) (line : ℕ) : SameScreen (scrolled c line) (scrolled d line) := by
  unfold Console.scrolled
  split_ifs
  · exact ⟨congrArg Screen.scrollDown h.screen, h.left, h.right⟩
  · exact h

/-- The effect of a byte when the console scrolls. -/
theorem writeByte_eq {w : Writing} (h : w.con.enableScrolling = true) (chr : Byte) :
    writeByte w chr = ⟨scrolled (moved w chr) (row w.line chr), row w.line chr, column w.cell chr⟩ := by
  have henable : (moved w chr).enableScrolling = true := (moved_enableScrolling w chr).trans h
  unfold writeByte scrolled
  rw [writeChr_eq]
  dsimp only
  rw [if_pos henable]
  split_ifs <;> rfl

theorem writeByte_line {w : Writing} (h : w.con.enableScrolling = true) (chr : Byte) :
    (writeByte w chr).con.line = w.con.line + frameStep w.cell chr ∧ (writeByte w chr).con.enableScrolling = true := by
  rw [writeByte_eq h, scrolled_line, scrolled_enableScrolling]
  exact ⟨moved_line h chr, (moved_enableScrolling w chr).trans h⟩

/-- **Two writings of one text**, from the same place: they show the same as long as the frames scroll alike. -/
theorem SameScreen.foldl (buf : List Byte) : ∀ {c d : Console} (line cell : ℕ), SameScreen c d →
    ScrollAlike c.line d.line (wraps cell buf) →
    SameScreen (buf.foldl writeByte ⟨c, line, cell⟩).con (buf.foldl writeByte ⟨d, line, cell⟩).con ∧
      (buf.foldl writeByte ⟨c, line, cell⟩).line = (buf.foldl writeByte ⟨d, line, cell⟩).line := by
  induction buf with
  | nil => exact fun _ _ h _ => ⟨h, rfl⟩
  | cons chr buf ih =>
      intro c d line cell h hs
      have hstep : ScrollAlike c.line d.line (frameStep cell chr) := hs.imp_right fun hs k hk hn => by
        exact hs k hk (Nat.le_add_right_of_le hn)
      have hmoved : SameScreen (Console.moved ⟨c, line, cell⟩ chr) (Console.moved ⟨d, line, cell⟩ chr) := h.moved hstep
      rw [List.foldl_cons, List.foldl_cons, writeByte_eq h.left, writeByte_eq h.right]
      refine ih _ _ (hmoved.scrolled _) ?_
      rw [scrolled_line, scrolled_line, moved_line h.left, moved_line h.right]
      exact hs.step

/-- The frame and the local line behind a text. -/
theorem foldl_line (buf : List Byte) : ∀ {w : Writing}, w.con.enableScrolling = true →
    (buf.foldl writeByte w).con.enableScrolling = true ∧ (buf.foldl writeByte w).con.line = w.con.line + wraps w.cell buf ∧
      (buf.foldl writeByte w).line = w.line + buf.count 0x0a := by
  induction buf with
  | nil => exact fun h => ⟨h, rfl, rfl⟩
  | cons chr buf ih =>
      intro w h
      obtain ⟨hline, henable⟩ := writeByte_line h chr
      obtain ⟨hall, hframe, hlocal⟩ := ih henable
      have hrow : (writeByte w chr).line = row w.line chr := by rw [writeByte_eq h]
      have hcolumn : (writeByte w chr).cell = column w.cell chr := by rw [writeByte_eq h]
      refine ⟨hall, ?_, ?_⟩
      · rw [List.foldl_cons, hframe, hline, hcolumn, wraps, frameStep, Nat.add_assoc]
      · rw [List.foldl_cons, hlocal, hrow, row_add_count]

theorem writeConsole_enableScrolling (h : c.enableScrolling = true) (buf : List Byte) :
    (c.writeConsole buf).enableScrolling = true :=
  (foldl_line buf h).1

theorem step_enableScrolling {op : ConsoleOp} (h : c.enableScrolling = true) (hs : op.step c = some d) :
    d.enableScrolling = true := by
  cases op with
  | writeConsole buf =>
      obtain rfl := Option.some.inj hs
      exact writeConsole_enableScrolling h buf
  | newline =>
      obtain rfl := Option.some.inj hs
      exact (newline_enableScrolling c).trans h
  | puts s =>
      obtain rfl := Option.some.inj hs
      exact (newline_enableScrolling _).trans (writeConsole_enableScrolling h s)
  | putchar ch =>
      obtain rfl := Option.some.inj hs
      exact writeConsole_enableScrolling h _

/-- Writing goes on where the locals are, not where the frame is. -/
theorem writeConsole_append (h : c.enableScrolling = true) (a b : List Byte)
    (hs : ScrollAlike (c.line + wraps c.cell a) (c.line + a.count 0x0a) (wraps (a.foldl column c.cell) b)) :
    c.writeConsole (a ++ b) = (c.writeConsole a).writeConsole b := by
  obtain ⟨henable, hframe, hlocal⟩ := foldl_line (w := ⟨c, c.line, c.cell⟩) a h
  have hcell := foldl_cell a ⟨c, c.line, c.cell⟩
  have happend : c.writeConsole (a ++ b) = let w := b.foldl writeByte (a.foldl writeByte ⟨c, c.line, c.cell⟩)
      { w.con with line := w.line, cell := w.cell } := by
    unfold writeConsole
    rw [List.foldl_append]
  have hparts : (c.writeConsole a).writeConsole b =
      let w := b.foldl writeByte (Writing.mk (c.writeConsole a) (a.foldl writeByte ⟨c, c.line, c.cell⟩).line
        (a.foldl writeByte ⟨c, c.line, c.cell⟩).cell)
      { w.con with line := w.line, cell := w.cell } := rfl
  generalize hw : a.foldl writeByte ⟨c, c.line, c.cell⟩ = w at *
  obtain ⟨con, line, cell⟩ := w
  dsimp only at henable hframe hlocal hcell
  have hsame : SameScreen con (c.writeConsole a) := by
    unfold writeConsole
    rw [hw]
    exact ⟨rfl, henable, henable⟩
  have halike : ScrollAlike con.line (c.writeConsole a).line (wraps cell b) := by
    have hline : (c.writeConsole a).line = line := by
      unfold writeConsole
      rw [hw]
    rw [hline, hframe, hlocal, hcell]
    exact hs
  obtain ⟨hend, hline⟩ := hsame.foldl b line cell halike
  have hlast : (b.foldl writeByte ⟨con, line, cell⟩).cell = (b.foldl writeByte ⟨c.writeConsole a, line, cell⟩).cell :=
    (foldl_cell b ⟨con, line, cell⟩).trans (foldl_cell b ⟨c.writeConsole a, line, cell⟩).symm
  rw [happend, hparts]
  dsimp only
  rw [hend.screen, hend.left, hend.right, hline, hlast]

end

/-- **Chunking.**  In every state that is reached a text may be written in two calls, when `newline` was called as often in
the first part as that has ends of lines, or none of its calls in the second part scrolls. -/
theorem chunking (vga : ℕ → Byte) {c : Console} (h : Reach ConsoleOp.step (fun _ _ => True) (init vga) c) (a b : List Byte)
    (hs : ScrollAlike (c.line + wraps c.cell a) (c.line + a.count 0x0a) (wraps (a.foldl column c.cell) b)) :
    c.writeConsole (a ++ b) = (c.writeConsole a).writeConsole b := by
  have henable : c.enableScrolling = true :=
    h.invariant (I := fun c => c.enableScrolling = true) rfl fun _ _ _ hc _ hs => step_enableScrolling hc hs
  exact writeConsole_append henable a b hs

theorem chunking_hello : let c := init fun _ => 0
    c.writeConsole ([0x48, 0x0a] ++ [0x69]) = (c.writeConsole [0x48, 0x0a]).writeConsole [0x69] :=
  chunking (fun _ => 0) .start _ _ (.inr fun k hk hn => absurd (hk.trans hn) (by decide))

/-! #### A scroll that depends on the call -/

theorem blank_vga (s : Screen) {i j : ℕ} (h : j ≠ i) (h' : j ≠ i + 1) : (s.blank i).vga j = s.vga j :=
  (update_of_ne h' _ _).trans (update_of_ne h _ _)

theorem raise_vga (s : Screen) {i j : ℕ} (h : j ≠ i) (h' : j ≠ i + 1) : (s.raise i).vga j = s.vga j :=
  (update_of_ne h' _ _).trans (update_of_ne h _ _)

/-- A loop over the cells gives each the same attribute. -/
theorem foldl_attribute {f : Screen → ℕ → Screen} {value : Byte} (own : ∀ s i, (f s i).vga (i + 1) = value)
    (keep : ∀ (s : Screen) {i j : ℕ}, j ≠ i → j ≠ i + 1 → (f s i).vga j = s.vga j) (s : Screen) {n k : ℕ} (hk : k < n) :
    ((List.range n).foldl (fun s k => f s (2 * k)) s).vga (2 * k + 1) = value := by
  induction n with
  | zero => exact absurd hk (Nat.not_lt_zero _)
  | succ n ih =>
      rw [List.range_succ, List.foldl_append]
      rcases Nat.lt_succ_iff_lt_or_eq.mp hk with hlt | rfl
      · exact (keep _ (by omega) (by omega)).trans (ih hlt)
      · exact own _ _

theorem foldl_blank_vga (s : Screen) (b n : ℕ) {i : ℕ} (hi : i < b) :
    ((List.range n).foldl (fun s k => s.blank (b + 2 * k)) s).vga i = s.vga i := by
  induction n with
  | zero => rfl
  | succ n ih =>
      rw [List.range_succ, List.foldl_append]
      exact (blank_vga _ (by omega) (by omega)).trans ih

theorem clearConsole_attribute (s : Screen) {i : ℕ} (hodd : i % 2 = 1) (hi : i < maxCells * maxLines) :
    s.clearConsole.vga i = 0 := by
  obtain ⟨k, rfl⟩ : ∃ k, i = 2 * k + 1 := ⟨i / 2, by omega⟩
  unfold Screen.clearConsole
  exact foldl_attribute (fun _ _ => update_self _ _ _) blank_vga s (by unfold maxCells maxLines at *; omega)

/-- A scroll makes all lines but the last white on black. -/
theorem scrollDown_attribute (s : Screen) {i : ℕ} (hodd : i % 2 = 1) (hi : i < maxCells * (maxLines - 1)) :
    s.scrollDown.vga i = 0x0F := by
  obtain ⟨k, rfl⟩ : ∃ k, i = 2 * k + 1 := ⟨i / 2, by omega⟩
  unfold Screen.scrollDown
  rw [foldl_blank_vga _ _ _ hi]
  exact foldl_attribute (fun _ _ => update_self _ _ _) raise_vga s (by unfold maxCells maxLines at *; omega)

/-- Twenty tabs: one line of the frame. -/
theorem tabs_writeByte (c : Console) {line : ℕ} (h : line ≠ maxLines) :
    (List.replicate 20 0x09).foldl writeByte ⟨c, line, 0⟩ = ⟨c.newline, line, 0⟩ := by
  simp [List.replicate, writeByte, writeChr, maxCells, h]

theorem newlines_writeByte (c : Console) {n line : ℕ} (h : line + n < maxLines) :
    (List.replicate n 0x0a).foldl writeByte ⟨c, line, 0⟩ = ⟨c, line + n, 0⟩ := by
  induction n generalizing line with
  | zero => rfl
  | succ n ih =>
      have hbyte : writeByte ⟨c, line, 0⟩ 0x0a = ⟨c, line + 1, 0⟩ := by
        have hne : line + 1 ≠ maxLines := by omega
        simp [writeByte, writeChr, hne]
      rw [List.replicate_succ, List.foldl_cons, hbyte, ih (by omega), Nat.add_assoc, Nat.add_comm 1 n]

/-- Behind 48 ends of lines, twenty tabs twice: in one call the second `newline` scrolls, in two calls it does not. -/
theorem chunk_scrolls : let c := (init fun _ => 0).writeConsole (List.replicate 48 0x0a)
    let tabs := List.replicate 20 (0x09 : Byte)
    (c.writeConsole (tabs ++ tabs)).screen.vga 1 = 0x0F ∧
      ((c.writeConsole tabs).writeConsole tabs).screen.vga 1 = 0 := by
  intro c tabs
  have hc : c = ⟨(Screen.mk (fun _ => 0) []).clearConsole, 48, 0, true⟩ := by
    show (init fun _ => 0).writeConsole _ = _
    unfold writeConsole init
    rw [newlines_writeByte _ (by decide)]
  have henable : c.enableScrolling = true := by rw [hc]
  have hline : c.line = 48 := by rw [hc]
  have hcell : c.cell = 0 := by rw [hc]
  have hne : (48 : ℕ) ≠ maxLines := by decide
  have hone : c.newline.screen = c.screen := by
    rw [newline_screen henable, hline]
    exact if_neg (by decide)
  have hparts : c.writeConsole tabs = { c.newline with line := 48, cell := 0 } := by
    unfold writeConsole
    rw [hline, hcell, tabs_writeByte c hne]
  constructor
  · have hboth : (c.writeConsole (tabs ++ tabs)).screen = c.newline.newline.screen := by
      unfold writeConsole
      rw [List.foldl_append, hline, hcell, tabs_writeByte c hne, tabs_writeByte _ hne]
    have hlast : c.newline.line + 1 = maxLines := by rw [newline_line henable, hline]; rfl
    rw [hboth, newline_screen ((newline_enableScrolling c).trans henable), if_pos hlast]
    exact scrollDown_attribute _ (by decide) (by decide)
  · have htwo : ((c.writeConsole tabs).writeConsole tabs).screen = c.newline.screen := by
      have hsecond : ((c.writeConsole tabs).writeConsole tabs).screen = (c.writeConsole tabs).newline.screen := by
        rw [hparts]
        unfold writeConsole
        dsimp only
        rw [tabs_writeByte _ hne]
      have hnoscroll : ¬ (c.writeConsole tabs).line + 1 = maxLines := by
        rw [hparts]
        decide
      rw [hsecond, newline_screen (writeConsole_enableScrolling henable tabs), if_neg hnoscroll, hparts]
    have hclear : c.screen = (Screen.mk (fun _ => 0) []).clearConsole := by rw [hc]
    rw [htwo, hone, hclear]
    exact clearConsole_attribute _ (by decide) (by decide)

end Console

end Dunkos
