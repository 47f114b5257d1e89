import Dunkos.Xprintf

/-! # `vsprintf` on strings in memory (`xprintf.c`, `string.c`)

A pointer into a string is the list of the characters from there on that may be read, the terminator being the last one;
a read behind it is `none`.  `strlen`, `strchr`, `memcpy` and `read_format` read one character after the other.
`vsprintfMemLoop_of_some` connects the loop with the one of `Xprintf.lean`, in which a format is the list of its
characters. -/

namespace Dunkos

/-! ### `string.c` -/

/-- The characters of a string. -/
structure CString where
  chars : List Char
  plain : '\x00' ∉ chars

/-- What may be read of a string. -/
def CString.mem (s : CString) : List Char := s.chars ++ ['\x00']

/-- `*s++`. -/
def readChar : List Char → Option (Char × List Char)
  | [] => none
  | c :: s => some (c, s)

def strlen : List Char → Option ℕ
  | [] => none
  | c :: s => if c ≠ '\x00' then (strlen s).map (· + 1) else some 0

/-- The pointer returned, or `none` for a null pointer. -/
def strchr (chr : Char) : List Char → Option (Option (List Char))
  | [] => none
  | c :: str =>
    if c ≠ chr then
      if c = '\x00' then some none else strchr chr str
    else some (some (c :: str))

/-- The characters that are copied. -/
def memcpy : ℕ → List Char → Option (List Char)
  | 0, _ => some []
  | _ + 1, [] => none
  | n + 1, c :: src => (memcpy n src).map (c :: ·)

theorem strlen_append {s : List Char} (hs : '\x00' ∉ s) (t : List Char) :
    strlen (s ++ t) = (strlen t).map (s.length + ·) := by
  induction s with
  | nil => simp
  | cons c s ih =>
      rw [List.mem_cons, not_or] at hs
      rw [List.cons_append, strlen, if_pos (Ne.symm hs.1), ih hs.2, Option.map_map]
      congr 1
      funext n
      simp [Nat.add_right_comm]

theorem strchr_append {chr : Char} {s : List Char} (hchr : chr ∉ s) (hs : '\x00' ∉ s) (t : List Char) :
    strchr chr (s ++ t) = strchr chr t := by
  induction s with
  | nil => rfl
  | cons c s ih =>
      rw [List.mem_cons, not_or] at hchr hs
      rw [List.cons_append, strchr, if_pos (Ne.symm hchr.1), if_neg (Ne.symm hs.1), ih hchr.2 hs.2]

/-- The pointer returned is not before the one given. -/
theorem strchr_suffix {chr : Char} {s e : List Char} (h : strchr chr s = some (some e)) : e <:+ s := by
  induction s with
  | nil => cases h
  | cons c s ih =>
      unfold strchr at h
      split_ifs at h
      · cases h
      · exact (ih h).trans (List.suffix_cons c s)
      · simp only [Option.some.injEq] at h
        rw [h]

theorem memcpy_append (s t : List Char) (n : ℕ) : memcpy (s.length + n) (s ++ t) = (memcpy n t).map (s ++ ·) := by
  induction s with
  | nil => simp
  | cons c s ih =>
      rw [List.length_cons, Nat.add_right_comm, List.cons_append, memcpy, ih, Option.map_map]
      rfl

/-- `strchr(specs, chr)` as a condition. -/
def isSpec (specs : List Char) (chr : Char) : Bool :=
  match strchr chr (specs ++ ['\x00']) with
  | some (some _) => true
  | _ => false

/-- The terminator is found in every string. -/
theorem isSpec_iff {specs : List Char} (hspecs : '\x00' ∉ specs) {chr : Char} :
    isSpec specs chr = true ↔ chr ∈ specs ∨ chr = '\x00' := by
  unfold isSpec
  by_cases hmem : chr ∈ specs
  · obtain ⟨s, t, rfl, hs⟩ := List.eq_append_cons_of_mem hmem
    have hplain : '\x00' ∉ s := fun h => hspecs (List.mem_append_left _ h)
    rw [List.append_assoc, strchr_append hs hplain]
    simp [strchr]
  · rw [strchr_append hmem hspecs]
    by_cases hchr : chr = '\x00'
    · simp [strchr, hchr]
    · simp [strchr, hchr, hmem, Ne.symm hchr]

/-! ### `read_format` -/

/-- The loop over the flags, which have `chr` as their next character. -/
def flagsLoop (chr : Char) (pfarg : FormatArgInfo) : List Char → Option (Char × List Char × FormatArgInfo)
  | [] => if chr ≠ '\x00' ∧ isSpec flagspecs chr then none else some (chr, [], pfarg)
  | c :: format =>
    if chr ≠ '\x00' ∧ isSpec flagspecs chr then flagsLoop c (setFlag pfarg chr) format
    else some (chr, c :: format, pfarg)

/-- The switch over the size specifiers; the cases of `l` and `h` read the next character. -/
def readSizeMem (format : List Char) (pfarg : FormatArgInfo) (chr : Char) : Option (List Char × FormatArgInfo) :=
  if (chr = 'l' ∨ chr = 'h') ∧ format = [] then none else some (readSize format pfarg chr)

/-- `read_format` behind the flags. -/
def readSpecsMem (pfarg : FormatArgInfo) (chr : Char) (format : List Char) : Option (List Char × FormatArgInfo) :=
  if isSpec sizespecs chr then
    (readSizeMem format pfarg chr).bind fun z => (readChar z.1).map fun r => (r.2, readConv z.2 r.1)
  else some (format, readConv pfarg chr)

/-- `format` is at the `%`. -/
def readFormatMem (format : List Char) (pfarg : FormatArgInfo) : Option (List Char × FormatArgInfo) :=
  (readChar format.tail).bind fun r =>
    (flagsLoop r.1 pfarg r.2).bind fun f => readSpecsMem f.2.2 f.1 f.2.1

theorem flagsLoop_eq (chr : Char) (pfarg : FormatArgInfo) (format : List Char) : flagsLoop chr pfarg format =
    if chr ≠ '\x00' ∧ isSpec flagspecs chr then
      (readChar format).bind fun r => flagsLoop r.1 (setFlag pfarg chr) r.2
    else some (chr, format, pfarg) := by
  cases format <;> rfl

theorem readFlags_suffix (s : List Char) (pfarg : FormatArgInfo) : (readFlags s pfarg).1 <:+ s := by
  induction s generalizing pfarg with
  | nil => exact List.suffix_rfl
  | cons c s ih =>
      unfold readFlags
      split_ifs
      · exact (ih _).trans (List.suffix_cons c s)
      · exact List.suffix_rfl

theorem readSize_suffix (s : List Char) (pfarg : FormatArgInfo) (chr : Char) : (readSize s pfarg chr).1 <:+ s := by
  unfold readSize
  split
  · split_ifs
    · exact List.tail_suffix s
    · exact List.suffix_rfl
  · split_ifs
    · exact List.tail_suffix s
    · exact List.suffix_rfl
  all_goals exact List.suffix_rfl

/-- The rest of a format is behind its first character. -/
theorem readFormat_suffix {s rest : List Char} {pfarg farg : FormatArgInfo}
    (h : readFormat ('%' :: s) pfarg = some (rest, farg)) : ∃ c, c :: rest <:+ s := by
  have hflags := readFlags_suffix s pfarg
  unfold readFormat readSpecs at h
  dsimp only [List.tail_cons] at h
  cases hs : (readFlags s pfarg).1 with
  | nil =>
      rw [hs] at h
      cases h
  | cons a r =>
      rw [hs] at h hflags
      dsimp only at h
      split_ifs at h
      · have hsize := readSize_suffix r (readFlags s pfarg).2 a
        cases hz : (readSize r (readFlags s pfarg).2 a).1 with
        | nil =>
            rw [hz] at h
            cases h
        | cons d t =>
            rw [hz] at h hsize
            simp only [Option.some.injEq, Prod.mk.injEq] at h
            refine ⟨d, ?_⟩
            rw [← h.1]
            exact (hsize.trans (List.suffix_cons a r)).trans hflags
      · simp only [Option.some.injEq, Prod.mk.injEq] at h
        exact ⟨a, h.1 ▸ hflags⟩

/-- The loop over the flags goes as far as `readFlags`. -/
theorem flagsLoop_append {s : List Char} (hs : '\x00' ∉ s) (pfarg : FormatArgInfo) : ∃ c f,
    (readFlags s pfarg).1 ++ ['\x00'] = c :: f ∧
      ((readChar (s ++ ['\x00'])).bind fun r => flagsLoop r.1 pfarg r.2) = some (c, f, (readFlags s pfarg).2) := by
  have hflags : '\x00' ∉ flagspecs := by decide
  induction s generalizing pfarg with
  | nil => exact ⟨'\x00', [], rfl, rfl⟩
  | cons a s ih =>
      rw [List.mem_cons, not_or] at hs
      have ha : a ≠ '\x00' := Ne.symm hs.1
      have hspec : isSpec flagspecs a = true ↔ a ∈ flagspecs := (isSpec_iff hflags).trans (or_iff_left ha)
      rw [List.cons_append, readChar, Option.bind_some, flagsLoop_eq, readFlags]
      by_cases hmem : a ∈ flagspecs
      · rw [if_pos hmem, if_pos ⟨ha, hspec.mpr hmem⟩]
        exact ih hs.2 (setFlag pfarg a)
      · have hno : ¬ (a ≠ '\x00' ∧ isSpec flagspecs a = true) := fun h => hmem (hspec.mp h.2)
        rw [if_neg hmem, if_neg hno]
        exact ⟨a, s ++ ['\x00'], rfl, rfl⟩

theorem readSize_append (s : List Char) (pfarg : FormatArgInfo) (chr : Char) :
    readSize (s ++ ['\x00']) pfarg chr = ((readSize s pfarg chr).1 ++ ['\x00'], (readSize s pfarg chr).2) := by
  unfold readSize
  cases s with
  | nil => split <;> rfl
  | cons c s =>
      split
      · by_cases hc : c = 'l' <;> simp [hc]
      · by_cases hc : c = 'h' <;> simp [hc]
      all_goals rfl

/-- `read_format` on the memory is `read_format` on the characters.  Where these have no conversion specifier, it reads
the character behind the terminator, or it returns the pointer to this character. -/
theorem readSpecsMem_cases {s : List Char} (hs : '\x00' ∉ s) (pfarg : FormatArgInfo) {c : Char} {f : List Char}
    (hmem : s ++ ['\x00'] = c :: f) :
    (∃ rest farg, readSpecs pfarg s = some (rest, farg) ∧ readSpecsMem pfarg c f = some (rest ++ ['\x00'], farg)) ∨
      readSpecs pfarg s = none ∧
        (readSpecsMem pfarg c f = none ∨ ∃ farg, readSpecsMem pfarg c f = some ([], farg)) := by
  have hsizes : '\x00' ∉ sizespecs := by decide
  cases s with
  | nil =>
      obtain ⟨rfl, rfl⟩ : '\x00' = c ∧ [] = f := by simpa using hmem
      exact .inr ⟨rfl, .inl rfl⟩
  | cons a s =>
      obtain ⟨rfl, rfl⟩ : a = c ∧ s ++ ['\x00'] = f := by simpa using hmem
      rw [List.mem_cons, not_or] at hs
      have ha : a ≠ '\x00' := Ne.symm hs.1
      have hspec : isSpec sizespecs a = true ↔ a ∈ sizespecs := (isSpec_iff hsizes).trans (or_iff_left ha)
      unfold readSpecsMem readSpecs
      dsimp only
      by_cases hsize : a ∈ sizespecs
      · have hpeek : ¬ ((a = 'l' ∨ a = 'h') ∧ s ++ ['\x00'] = []) := fun h => by simp at h
        rw [if_pos hsize, if_pos (hspec.mpr hsize), readSizeMem, if_neg hpeek, Option.bind_some, readSize_append]
        cases hr : (readSize s pfarg a).1 with
        | nil => exact .inr ⟨rfl, .inr ⟨_, rfl⟩⟩
        | cons d r => exact .inl ⟨_, _, rfl, rfl⟩
      · have hno : ¬ isSpec sizespecs a = true := fun h => hsize (hspec.mp h)
        rw [if_neg hsize, if_neg hno]
        exact .inl ⟨_, _, rfl, rfl⟩

theorem readFormatMem_cases {s : List Char} (hs : '\x00' ∉ s) (pfarg : FormatArgInfo) :
    (∃ rest farg, readFormat ('%' :: s) pfarg = some (rest, farg) ∧
      readFormatMem ('%' :: (s ++ ['\x00'])) pfarg = some (rest ++ ['\x00'], farg)) ∨
      readFormat ('%' :: s) pfarg = none ∧ (readFormatMem ('%' :: (s ++ ['\x00'])) pfarg = none ∨
        ∃ farg, readFormatMem ('%' :: (s ++ ['\x00'])) pfarg = some ([], farg)) := by
  obtain ⟨c, f, hmem, hflags⟩ := flagsLoop_append hs pfarg
  have hrest : '\x00' ∉ (readFlags s pfarg).1 := fun h => hs ((readFlags_suffix s pfarg).mem h)
  have hread : readFormatMem ('%' :: (s ++ ['\x00'])) pfarg = readSpecsMem (readFlags s pfarg).2 c f := by
    unfold readFormatMem
    rw [List.tail_cons, ← Option.bind_assoc, hflags, Option.bind_some]
  rw [hread]
  exact readSpecsMem_cases hrest (readFlags s pfarg).2 hmem

/-! ### `vsprintf` -/

/-- Why a call comes to no end: a character behind a terminator is read, no argument is left, or `rounds` of the loop
are not enough. -/
inductive FmtStop where
  | beyond
  | args
  | rounds
deriving DecidableEq

def orStop {A : Type} (stop : FmtStop) : Option A → Except FmtStop A
  | none => .error stop
  | some a => .ok a

section
variable {A B : Type} (stop : FmtStop) (f : A → Except FmtStop B)

@[simp] theorem orStop_none_bind : (orStop stop none).bind f = .error stop := rfl

@[simp] theorem orStop_some_bind (a : A) : (orStop stop (some a)).bind f = f a := rfl

end

section code
variable (str : BitVec 64 → CString)

/-- The string at `x` is `str x`. -/
def writeFormatMem (value : BitVec 64) (dest : List Char) (pfarg : FormatArgInfo) (argv : List (BitVec 64)) :
    Except FmtStop (List Char × List (BitVec 64)) :=
  match pfarg.data with
  | .str =>
    (orStop .args (vaArg argv)).bind fun r =>
      (orStop .beyond (strlen (str r.1).mem)).bind fun len =>
        (orStop .beyond (memcpy len (str r.1).mem)).bind fun text => .ok (dest ++ text, r.2)
  | _ => orStop .args (writeFormat (fun x => (str x).chars) value dest pfarg argv)

/-- The loop, and what is behind it. -/
def vsprintfMemLoop (j : Junk) :
    ℕ → List Char → FormatArgInfo → List (BitVec 64) → List Char → ℕ → Except FmtStop Printed
  | 0, _, _, _, _, _ => .error .rounds
  | rounds + 1, fmtStart, farg, argv, dest, argc =>
    match strchr '%' fmtStart with
    | none => .error .beyond
    | some none =>
      (orStop .beyond (strlen fmtStart)).bind fun len =>
        (orStop .beyond (memcpy len fmtStart)).bind fun text => .ok ⟨dest ++ text ++ ['\x00'], argc, argv⟩
    | some (some fmtEnd) =>
      (orStop .beyond (memcpy (fmtStart.length - fmtEnd.length) fmtStart)).bind fun text =>
        (orStop .beyond (readFormatMem fmtEnd (fmtDefaults farg))).bind fun r =>
          (writeFormatMem str (j.value argc) (dest ++ text) r.2 argv).bind fun w =>
            vsprintfMemLoop j rounds r.1 r.2 w.2 w.1 (argc + 1)

def vsprintfMem (j : Junk) (format : CString) (argv : List (BitVec 64)) : Except FmtStop Printed :=
  vsprintfMemLoop str j (format.chars.length + 1) format.mem j.farg argv [] 0

end code

/-! ### The loop -/

section run
variable (str : BitVec 64 → CString) (j : Junk) (farg : FormatArgInfo) (argv : List (BitVec 64)) (dest : List Char)
  (argc : ℕ)

theorem CString.strlen_mem (s : CString) : strlen s.mem = some s.chars.length := by
  rw [mem, strlen_append s.plain]
  rfl

theorem CString.memcpy_mem (s : CString) : memcpy s.chars.length s.mem = some s.chars := by
  have h := memcpy_append s.chars ['\x00'] 0
  rw [Nat.add_zero] at h
  rw [mem, h, memcpy, Option.map_some, List.append_nil]

/-- A string is written as its characters. -/
theorem writeFormatMem_eq (value : BitVec 64) (pfarg : FormatArgInfo) : writeFormatMem str value dest pfarg argv =
    orStop .args (writeFormat (fun x => (str x).chars) value dest pfarg argv) := by
  unfold writeFormatMem
  cases hdata : pfarg.data with
  | str =>
      cases argv with
      | nil =>
          simp [writeFormat, hdata, vaArg]
          rfl
      | cons x argv =>
          simp [writeFormat, hdata, vaArg, CString.strlen_mem, CString.memcpy_mem]
          rfl
  | _ => rfl

/-- Literal text is copied. -/
theorem vsprintfMemLoop_text {s : List Char} (hs : '%' ∉ s) (hplain : '\x00' ∉ s) (rounds : ℕ) (m : List Char) :
    vsprintfMemLoop str j rounds (s ++ m) farg argv dest argc =
      vsprintfMemLoop str j rounds m farg argv (dest ++ s) argc := by
  cases rounds with
  | zero => rfl
  | succ rounds =>
      unfold vsprintfMemLoop
      rw [strchr_append hs hplain]
      rcases hchr : strchr '%' m with _ | _ | fmtEnd
      · rfl
      · dsimp only
        rw [strlen_append hplain]
        cases strlen m with
        | none => rfl
        | some len =>
            rw [Option.map_some]
            rw [orStop_some_bind, orStop_some_bind, memcpy_append]
            cases memcpy len m with
            | none => rfl
            | some text => simp
      · have hlen := (strchr_suffix hchr).length_le
        have hoff : (s ++ m).length - fmtEnd.length = s.length + (m.length - fmtEnd.length) := by
          rw [List.length_append]
          omega
        dsimp only
        rw [hoff, memcpy_append]
        cases memcpy (m.length - fmtEnd.length) m with
        | none => rfl
        | some text => simp

/-- At a `%`. -/
theorem vsprintfMemLoop_percent (rounds : ℕ) (m : List Char) :
    vsprintfMemLoop str j (rounds + 1) ('%' :: m) farg argv dest argc =
      (orStop .beyond (readFormatMem ('%' :: m) (fmtDefaults farg))).bind fun r =>
        (orStop .args (writeFormat (fun x => (str x).chars) (j.value argc) dest r.2 argv)).bind fun w =>
          vsprintfMemLoop str j rounds r.1 r.2 w.2 w.1 (argc + 1) := by
  have hstrchr : strchr '%' ('%' :: m) = some (some ('%' :: m)) := by simp [strchr]
  rw [vsprintfMemLoop, hstrchr]
  dsimp only
  simp [memcpy, writeFormatMem_eq]

/-- At the terminator. -/
theorem vsprintfMemLoop_end (rounds : ℕ) : vsprintfMemLoop str j (rounds + 1) ['\x00'] farg argv dest argc =
    .ok ⟨dest ++ ['\x00'], argc, argv⟩ := by
  simp [vsprintfMemLoop, strchr, strlen, memcpy]

/-- A format is literal text, or literal text up to a `%`. -/
theorem exists_percent (s : List Char) : ∃ t, '%' ∉ t ∧ (s = t ∨ ∃ u, s = t ++ '%' :: u) := by
  by_cases h : '%' ∈ s
  · obtain ⟨t, u, rfl, ht⟩ := List.eq_append_cons_of_mem h
    exact ⟨t, ht, .inr ⟨u, rfl⟩⟩
  · exact ⟨s, h, .inl rfl⟩

/-- **The call on the memory does what the call on the characters does.** -/
theorem vsprintfMemLoop_of_some {format : List Char} (hplain : '\x00' ∉ format) {rounds : ℕ} {r : Printed}
    (h : vsprintfLoop (fun x => (str x).chars) j rounds format farg argv dest argc = some r) :
    vsprintfMemLoop str j rounds (format ++ ['\x00']) farg argv dest argc = .ok r := by
  induction rounds generalizing format farg argv dest argc with
  | zero => cases h
  | succ rounds ih =>
      obtain ⟨s, hs, hformat⟩ := exists_percent format
      have htext : ∀ c ∈ s, c ≠ '%' ∧ c ≠ '\x00' := by
        intro c hc
        refine ⟨fun he => hs (he ▸ hc), fun he => hplain ?_⟩
        rcases hformat with rfl | ⟨u, rfl⟩
        · exact he ▸ hc
        · exact List.mem_append_left _ (he ▸ hc)
      have hsplain : '\x00' ∉ s := fun hc => (htext _ hc).2 rfl
      rcases hformat with rfl | ⟨u, rfl⟩
      · have hlist := vsprintfLoop_text (fun x => (str x).chars) j farg argv dest argc htext (rounds + 1) []
        rw [List.append_nil] at hlist
        rw [hlist, vsprintfLoop] at h
        rw [vsprintfMemLoop_text _ _ _ _ _ _ hs hsplain, vsprintfMemLoop_end]
        simpa using h
      · have hu : '\x00' ∉ u := fun hc => hplain (List.mem_append_right _ (List.mem_cons_of_mem _ hc))
        rw [vsprintfLoop_text _ _ _ _ _ _ htext] at h
        rw [List.append_assoc, vsprintfMemLoop_text _ _ _ _ _ _ hs hsplain, List.cons_append,
          vsprintfMemLoop_percent]
        rw [vsprintfLoop_percent] at h
        rcases readFormatMem_cases hu (fmtDefaults farg) with ⟨rest, farg', hread, hmem⟩ | ⟨hread, -⟩
        · rw [hread, Option.bind_some] at h
          obtain ⟨w, hw, hloop⟩ := Option.bind_eq_some_iff.mp h
          obtain ⟨c, hsuffix⟩ := readFormat_suffix hread
          have hrest : '\x00' ∉ rest := fun hc => hu (hsuffix.mem (List.mem_cons_of_mem c hc))
          rw [hmem, orStop_some_bind, hw, orStop_some_bind]
          exact ih farg' w.2 w.1 (argc + 1) hrest hloop
        · rw [hread] at h
          cases h

end run

theorem vsprintfMem_of_some {str : BitVec 64 → CString} {j : Junk} {format : CString} {argv : List (BitVec 64)}
    {r : Printed} (h : vsprintf (fun x => (str x).chars) j format.chars argv = some r) :
    vsprintfMem str j format argv = .ok r :=
  vsprintfMemLoop_of_some str j j.farg argv [] 0 format.plain h

end Dunkos
