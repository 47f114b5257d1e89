import Dunkos.FormatMemory
import Mathlib.Data.List.TakeWhile

/-! # Formats that end inside a conversion (`read_format` of `xprintf.c`)

`strchr` finds the terminator in `sizespecs`, so that a `%` without a conversion specifier makes `read_format` take the
terminator for a size specifier, and the character behind it for the conversion specifier.  Behind a size specifier the
terminator is taken for the conversion specifier, and `vsprintf` goes on behind it.  `vsprintf_reads_iff` says that all
other formats are read up to their terminator, unknown conversions too. -/

namespace Dunkos

/-- `s` is literal text and conversions, known or unknown, up to `r`. -/
inductive Passes : List Char → List Char → Prop
  | refl (s : List Char) : Passes s s
  | text {c : Char} {s r : List Char} : c ≠ '%' → Passes s r → Passes (c :: s) r
  | conversion {flags : List Char} {size : SizeSpec} {conv : Char} {s r : List Char} :
      (∀ c ∈ flags, c ∈ flagspecs) → size.Before conv → Passes s r →
      Passes ('%' :: (flags ++ (size.chars ++ conv :: s))) r

/-- Every `%` begins a conversion that has its conversion specifier. -/
def Complete (s : List Char) : Prop := Passes s []

/-- The format ends behind a `%` with flags, a size specifier, or neither. -/
def CutOff (s : List Char) : Prop :=
  ∃ (flags : List Char) (size : SizeSpec), (∀ c ∈ flags, c ∈ flagspecs) ∧ Passes s ('%' :: (flags ++ size.chars))

/-! ### Every format is complete or cut off -/

/-- A size specifier or none, at the end or in front of the conversion specifier. -/
def Specs (s : List Char) : Prop :=
  ∃ size : SizeSpec, s = size.chars ∨ ∃ conv rest, size.Before conv ∧ s = size.chars ++ conv :: rest

theorem specs_append (size : SizeSpec) {s : List Char} (h : ∀ conv ∈ s.head?, size.Before conv) :
    Specs (size.chars ++ s) := by
  cases s with
  | nil => exact ⟨size, .inl (List.append_nil _)⟩
  | cons conv rest => exact ⟨size, .inr ⟨conv, rest, h conv rfl, rfl⟩⟩

theorem specs_of_head {s : List Char} (hs : ∀ c ∈ s.head?, c ∉ flagspecs) : Specs s := by
  cases s with
  | nil => exact ⟨.none, .inl rfl⟩
  | cons c s =>
      by_cases hsize : c ∈ sizespecs
      · simp only [sizespecs, List.mem_cons, List.not_mem_nil, or_false] at hsize
        rcases hsize with rfl | rfl | rfl | rfl | rfl | rfl
        · by_cases hl : s.head? = some 'l'
          · obtain ⟨t, rfl⟩ := List.head?_eq_some_iff.mp hl
            exact specs_append .ll fun _ _ => trivial
          · exact specs_append .l fun conv hconv he => hl (he ▸ hconv)
        · by_cases hh : s.head? = some 'h'
          · obtain ⟨t, rfl⟩ := List.head?_eq_some_iff.mp hh
            exact specs_append .hh fun _ _ => trivial
          · exact specs_append .h fun conv hconv he => hh (he ▸ hconv)
        · exact specs_append .z fun _ _ => trivial
        · exact specs_append .t fun _ _ => trivial
        · exact specs_append .j fun _ _ => trivial
        · exact specs_append .L fun _ _ => trivial
      · exact ⟨.none, .inr ⟨c, s, ⟨hs c rfl, hsize⟩, rfl⟩⟩

/-- What is behind a `%`: flags, and specifiers. -/
theorem exists_flags (s : List Char) :
    ∃ flags rest, (∀ c ∈ flags, c ∈ flagspecs) ∧ Specs rest ∧ s = flags ++ rest := by
  have hflags : ∀ c ∈ s.takeWhile (· ∈ flagspecs), c ∈ flagspecs := by
    intro c hc
    have hmem := List.mem_takeWhile_imp hc
    simpa using hmem
  have hrest : ∀ c ∈ (s.dropWhile (· ∈ flagspecs)).head?, c ∉ flagspecs := by
    intro c hc hmem
    have hnot := List.head?_dropWhile_not (· ∈ flagspecs) s
    rw [Option.mem_def.mp hc] at hnot
    simp [hmem] at hnot
  exact ⟨_, _, hflags, specs_of_head hrest, List.takeWhile_append_dropWhile.symm⟩

theorem complete_or_cutOff (s : List Char) : Complete s ∨ CutOff s := by
  induction hn : s.length using Nat.strong_induction_on generalizing s with
  | _ n ih =>
      cases s with
      | nil => exact .inl (.refl [])
      | cons c s =>
          by_cases hc : c = '%'
          · subst hc
            obtain ⟨flags, rest, hflags, ⟨size, rfl | ⟨conv, t, hbefore, rfl⟩⟩, rfl⟩ := exists_flags s
            · exact .inr ⟨flags, size, hflags, .refl _⟩
            · have hlt : t.length < n := by
                simp at hn
                omega
              rcases ih t.length hlt t rfl with h | ⟨flags', size', hflags', h⟩
              · exact .inl (.conversion hflags hbefore h)
              · exact .inr ⟨flags', size', hflags', .conversion hflags hbefore h⟩
          · have hlt : s.length < n := by
              rw [← hn]
              exact Nat.lt_succ_self _
            rcases ih s.length hlt s rfl with h | ⟨flags', size', hflags', h⟩
            · exact .inl (.text hc h)
            · exact .inr ⟨flags', size', hflags', .text hc h⟩

/-! ### Reading a conversion -/

/-- A conversion is read to its end, whatever follows. -/
theorem readFormat_conversion {flags : List Char} (hflags : ∀ c ∈ flags, c ∈ flagspecs) {size : SizeSpec}
    {conv : Char} (hbefore : size.Before conv) (s : List Char) (stale : FormatArgInfo) :
    ∃ farg, readFormat ('%' :: (flags ++ (size.chars ++ conv :: s))) (fmtDefaults stale) = some (s, farg) := by
  obtain ⟨pad, signPad, hread⟩ := readFlags_append flags (size.chars ++ conv :: s) (fmtDefaults stale) hflags
    (size.head_notMem_flagspecs hbefore s)
  unfold readFormat
  rw [List.tail_cons, hread]
  exact ⟨_, size.readSpecs_chars hbefore s _ rfl⟩

theorem readFormatMem_conversion {flags : List Char} (hflags : ∀ c ∈ flags, c ∈ flagspecs) {size : SizeSpec}
    {conv : Char} (hbefore : size.Before conv) {s : List Char} (hplain : '\x00' ∉ flags ++ (size.chars ++ conv :: s))
    (stale : FormatArgInfo) : ∃ farg,
      readFormatMem ('%' :: (flags ++ (size.chars ++ conv :: s) ++ ['\x00'])) (fmtDefaults stale) =
        some (s ++ ['\x00'], farg) := by
  obtain ⟨farg, hread⟩ := readFormat_conversion hflags hbefore s stale
  rcases readFormatMem_cases hplain (fmtDefaults stale) with ⟨rest, farg', hread', hmem⟩ | ⟨hnone, -⟩
  · obtain ⟨rfl, rfl⟩ : s = rest ∧ farg = farg' := by simpa [hread] using hread'
    exact ⟨farg, hmem⟩
  · rw [hread] at hnone
    cases hnone

/-- Without a conversion specifier there is none to be read. -/
theorem readFormat_cut {flags : List Char} (hflags : ∀ c ∈ flags, c ∈ flagspecs) (size : SizeSpec)
    (pfarg : FormatArgInfo) : readFormat ('%' :: (flags ++ size.chars)) pfarg = none := by
  have hhead : ∀ c ∈ size.chars.head?, c ∉ flagspecs := by cases size <;> simp [SizeSpec.chars, flagspecs]
  obtain ⟨pad, signPad, hread⟩ := readFlags_append flags size.chars pfarg hflags hhead
  unfold readFormat
  rw [List.tail_cons, hread]
  cases size <;> simp [SizeSpec.chars, readSpecs, sizespecs, readSize]

/-! ### The run -/

/-- A conversion takes one slot at most. -/
theorem exists_writeFormat (str : BitVec 64 → List Char) (value : BitVec 64) (dest : List Char) (pfarg : FormatArgInfo)
    (x : BitVec 64) (argv : List (BitVec 64)) :
    ∃ t rest, writeFormat str value dest pfarg (x :: argv) = some (t, rest) ∧ argv.length ≤ rest.length := by
  have hkeep : argv.length ≤ (x :: argv).length := Nat.le_succ _
  unfold writeFormat
  cases pfarg.data with
  | int =>
      dsimp only
      unfold writeInt readValue vaArg
      split_ifs
      · exact ⟨_, _, rfl, Nat.le_refl _⟩
      · exact ⟨_, _, rfl, Nat.le_refl _⟩
      · split
        all_goals first | exact ⟨_, _, rfl, Nat.le_refl _⟩ | exact ⟨_, _, rfl, hkeep⟩
  | chr => exact ⟨_, _, rfl, Nat.le_refl _⟩
  | str => exact ⟨_, _, rfl, Nat.le_refl _⟩
  | flt => exact ⟨_, _, rfl, hkeep⟩
  | esc => exact ⟨_, _, rfl, hkeep⟩

theorem writeFormat_slots (str : BitVec 64 → List Char) (value : BitVec 64) (dest : List Char) (pfarg : FormatArgInfo)
    (argv : List (BitVec 64)) : writeFormat str value dest pfarg argv = none ∧ argv = [] ∨
      ∃ t rest, writeFormat str value dest pfarg argv = some (t, rest) ∧ argv.length ≤ rest.length + 1 := by
  cases argv with
  | nil =>
      cases hw : writeFormat str value dest pfarg [] with
      | none => exact .inl ⟨rfl, rfl⟩
      | some w => exact .inr ⟨w.1, w.2, rfl, Nat.zero_le _⟩
  | cons x argv =>
      obtain ⟨t, rest, hw, hle⟩ := exists_writeFormat str value dest pfarg x argv
      exact .inr ⟨t, rest, hw, Nat.succ_le_succ hle⟩

section run
variable (str : BitVec 64 → CString) (j : Junk)

/-- The rest `r` of a format is reached with a round and an argument for each of its characters, if there were as many at
the start; with less, the arguments may have run out. -/
theorem Passes.run {s r : List Char} (h : Passes s r) (hplain : '\x00' ∉ s) {rounds : ℕ} (hrounds : s.length < rounds)
    (farg : FormatArgInfo) (argv : List (BitVec 64)) (dest : List Char) (argc : ℕ) :
    (vsprintfMemLoop str j rounds (s ++ ['\x00']) farg argv dest argc = .error .args ∧ argv.length < s.length) ∨
      ∃ rounds' farg' argv' dest' argc', r.length < rounds' ∧
        (s.length ≤ argv.length → r.length ≤ argv'.length) ∧
        vsprintfMemLoop str j rounds (s ++ ['\x00']) farg argv dest argc =
          vsprintfMemLoop str j rounds' (r ++ ['\x00']) farg' argv' dest' argc' := by
  induction h generalizing rounds farg argv dest argc with
  | refl s => exact .inr ⟨rounds, farg, argv, dest, argc, hrounds, id, rfl⟩
  | @text c s r hc _ ih =>
      rw [List.mem_cons, not_or] at hplain
      have hpercent : '%' ∉ [c] := by simpa using Ne.symm hc
      have hnull : '\x00' ∉ [c] := by simpa using hplain.1
      have hstep := vsprintfMemLoop_text str j farg argv dest argc hpercent hnull rounds (s ++ ['\x00'])
      rw [List.singleton_append] at hstep
      rw [List.cons_append, hstep]
      rcases ih hplain.2 (Nat.lt_of_succ_lt hrounds) farg argv (dest ++ [c]) argc with
        ⟨hargs, hlt⟩ | ⟨rounds', farg', argv', dest', argc', hr, hargv, heq⟩
      · exact .inl ⟨hargs, Nat.lt_succ_of_lt hlt⟩
      · exact .inr ⟨rounds', farg', argv', dest', argc', hr, fun hle => hargv (Nat.le_of_succ_le hle), heq⟩
  | @conversion flags size conv s r hflags hbefore _ ih =>
      have hplain' : '\x00' ∉ flags ++ (size.chars ++ conv :: s) := fun hc => hplain (List.mem_cons_of_mem _ hc)
      have hs : '\x00' ∉ s := fun hc => hplain' (by simp [hc])
      obtain ⟨farg', hread⟩ := readFormatMem_conversion hflags hbefore hplain' farg
      have hlen : s.length + 1 ≤ (flags ++ (size.chars ++ conv :: s)).length := by
        simp
        omega
      obtain ⟨rounds, rfl⟩ : ∃ n, rounds = n + 1 := ⟨rounds - 1, by omega⟩
      rw [List.cons_append, vsprintfMemLoop_percent, hread, orStop_some_bind]
      rw [List.length_cons] at hrounds ⊢
      rcases writeFormat_slots (fun x => (str x).chars) (j.value argc) dest farg' argv with
        ⟨hw, rfl⟩ | ⟨t, left, hw, hle⟩
      · rw [hw]
        exact .inl ⟨rfl, Nat.succ_pos _⟩
      · have hrounds' : s.length < rounds := by omega
        rw [hw, orStop_some_bind]
        rcases ih hs hrounds' farg' left t (argc + 1) with
          ⟨hargs, hlt⟩ | ⟨rounds', farg₂, argv', dest', argc', hr, hargv, heq⟩
        · exact .inl ⟨hargs, by omega⟩
        · exact .inr ⟨rounds', farg₂, argv', dest', argc', hr, fun hle' => hargv (by omega), heq⟩

/-- At a cut off conversion, the character behind the terminator is read, by `read_format` or when it has returned. -/
theorem vsprintfMemLoop_cut {flags : List Char} (hflags : ∀ c ∈ flags, c ∈ flagspecs) (size : SizeSpec) {rounds : ℕ}
    (hrounds : 1 < rounds) (farg : FormatArgInfo) {argv : List (BitVec 64)} (hargv : argv ≠ []) (dest : List Char)
    (argc : ℕ) :
    vsprintfMemLoop str j rounds ('%' :: (flags ++ size.chars) ++ ['\x00']) farg argv dest argc = .error .beyond := by
  have hplain : '\x00' ∉ flags ++ size.chars := by
    intro hc
    rcases List.mem_append.mp hc with hc | hc
    · exact absurd (hflags _ hc) (by decide)
    · cases size <;> simp [SizeSpec.chars] at hc
  obtain ⟨rounds, rfl⟩ : ∃ n, rounds = n + 1 + 1 := ⟨rounds - 2, by omega⟩
  rw [List.cons_append, vsprintfMemLoop_percent]
  rcases readFormatMem_cases hplain (fmtDefaults farg) with ⟨rest, farg', hread, -⟩ | ⟨-, hmem | ⟨farg', hmem⟩⟩
  · rw [readFormat_cut hflags] at hread
    cases hread
  · rw [hmem]
    rfl
  · rw [hmem]
    rcases writeFormat_slots (fun x => (str x).chars) (j.value argc) dest farg' argv with
      ⟨-, hnil⟩ | ⟨t, left, hw, -⟩
    · exact absurd hnil hargv
    · rw [orStop_some_bind, hw]
      rfl

end run

/-- No read behind the terminator, and an end. -/
def StaysInside (r : Except FmtStop Printed) : Prop := r ≠ .error .beyond ∧ r ≠ .error .rounds

/-- **Which formats are read up to their terminator**, whatever the arguments, the strings and the stack: those in
which every `%` begins a conversion that has its conversion specifier. -/
theorem vsprintf_reads_iff (format : CString) :
    (∀ str j argv, StaysInside (vsprintfMem str j format argv)) ↔ Complete format.chars := by
  constructor
  · intro h
    rcases complete_or_cutOff format.chars with hcomplete | ⟨flags, size, hflags, hpasses⟩
    · exact hcomplete
    · let str : BitVec 64 → CString := fun _ => ⟨[], List.not_mem_nil⟩
      let j := Junk.ofSzt false
      let argv : List (BitVec 64) := List.replicate format.chars.length 0
      have hargv : format.chars.length ≤ argv.length := by simp [argv]
      rcases hpasses.run str j format.plain (Nat.lt_succ_self _) j.farg argv [] 0 with
        ⟨-, hlt⟩ | ⟨rounds', farg', argv', dest', argc', hr, hargv', heq⟩
      · omega
      · have hne : argv' ≠ [] := fun hnil => by
          have hle := hargv' hargv
          simp [hnil] at hle
        have hrounds : 1 < rounds' := by
          rw [List.length_cons] at hr
          omega
        rw [vsprintfMemLoop_cut str j hflags size hrounds farg' hne] at heq
        exact absurd heq (h str j argv).1
  · intro hcomplete str j argv
    unfold vsprintfMem CString.mem
    rcases hcomplete.run str j format.plain (Nat.lt_succ_self _) j.farg argv [] 0 with
      ⟨hargs, -⟩ | ⟨rounds', farg', argv', dest', argc', hr, -, heq⟩
    · rw [hargs]
      simp [StaysInside]
    · obtain ⟨n, rfl⟩ : ∃ n, rounds' = n + 1 := ⟨rounds' - 1, by omega⟩
      rw [heq, List.nil_append, vsprintfMemLoop_end]
      simp [StaysInside]

/-- **A `%` at the end, alone, behind a flag and before a size specifier**: the character behind the terminator is read. -/
theorem vsprintf_percent_at_end :
    (∀ str j argv h, vsprintfMem str j ⟨['%'], h⟩ argv = .error .beyond) ∧
      (∀ str j argv h, vsprintfMem str j ⟨['%', '#'], h⟩ argv = .error .beyond) ∧
      (∀ str j x argv h, vsprintfMem str j ⟨['%', 'l'], h⟩ (x :: argv) = .error .beyond) ∧
      ¬ ∀ format str j argv, StaysInside (vsprintfMem str j format argv) := by
  have hpercent : ∀ str j argv h, vsprintfMem str j ⟨['%'], h⟩ argv = .error .beyond := fun _ _ _ _ => rfl
  refine ⟨hpercent, fun _ _ _ _ => rfl, fun str j x argv h => ?_, fun h => ?_⟩
  · have hrounds : 1 < 3 := by decide
    exact vsprintfMemLoop_cut str j (List.forall_mem_nil _) .l hrounds j.farg (List.cons_ne_nil x argv) [] 0
  · let str : BitVec 64 → CString := fun _ => ⟨[], List.not_mem_nil⟩
    exact (h ⟨['%'], by decide⟩ str (Junk.ofSzt false) []).1 (hpercent _ _ _ _)

end Dunkos
