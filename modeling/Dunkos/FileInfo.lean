import Dunkos.Guarded
import Mathlib.Data.BitVec

/-! # The mode of a file (`file_set_info`, `file_set_mode`)

An inode has one word of information: flags in its low bits, and nine bits of the mode behind them.  `file_set_info` and
`file_get_info` hold the lock of the inode.  `file_set_mode` does not: it calls the one and then the other, and others may
come in between.  `file_modes` says that nothing but modes can get lost so, as long as the word is set by `file_set_mode`
only. -/

namespace Dunkos

open Function Transition

def fileinfoModeBase : ℕ := 8

/-- `filemode(FILEINFO_ALL_PERM, md)`. -/
def filemodeAll (md : ℕ) : BitVec 32 := 0b111#32 <<< (md * 3 + fileinfoModeBase)

def fileinfoModeMask : BitVec 32 := filemodeAll 2 ||| filemodeAll 1 ||| filemodeAll 0

/-- The word that `file_set_mode` sets, when it got `info`.  The mask and the mode are of type `int`. -/
def fileSetModeInfo (info : BitVec 64) (mode : BitVec 32) : BitVec 64 :=
  (info &&& (~~~fileinfoModeMask).signExtend 64) ||| (mode <<< fileinfoModeBase).signExtend 64

/-- No more than the nine bits. -/
def IsMode (mode : BitVec 32) : Prop := mode.toNat < 2 ^ 9

instance (mode : BitVec 32) : Decidable (IsMode mode) := inferInstanceAs (Decidable (_ < _))

/-! ### The word -/

section
variable {info : BitVec 64} {mode mode' : BitVec 32}

theorem modeMask_getLsbD {i : ℕ} (hi : i < 64) :
    ((~~~fileinfoModeMask).signExtend 64).getLsbD i = !decide (8 ≤ i ∧ i < 17) := by
  have hall : ∀ i < 64, ((~~~fileinfoModeMask).signExtend 64).getLsbD i = !decide (8 ≤ i ∧ i < 17) := by decide
  exact hall i hi

theorem IsMode.getLsbD (h : IsMode mode) {i : ℕ} (hi : 9 ≤ i) : mode.getLsbD i = false := by
  rw [BitVec.getLsbD, Nat.testBit_eq_decide_div_mod_eq, Nat.div_eq_of_lt]
  · rfl
  · exact Nat.lt_of_lt_of_le h (Nat.pow_le_pow_right (by decide) hi)

theorem IsMode.shift_getLsbD (h : IsMode mode) {i : ℕ} (hi : i < 64) :
    ((mode <<< fileinfoModeBase).signExtend 64).getLsbD i = (decide (8 ≤ i ∧ i < 17) && mode.getLsbD (i - 8)) := by
  have hmsb : (mode <<< fileinfoModeBase).msb = false := by
    rw [BitVec.msb_eq_getLsbD_last, BitVec.getLsbD_shiftLeft, h.getLsbD (by decide)]
    exact Bool.and_false _
  rw [BitVec.getLsbD_signExtend, hmsb, BitVec.getLsbD_shiftLeft, fileinfoModeBase]
  rcases Nat.lt_or_ge i 17 with hlt | hge
  · have h32 : i < 32 := by omega
    by_cases hle : 8 ≤ i
    · simp [hi, h32, hlt, hle]
    · simp [hle]
  · rw [h.getLsbD (i := i - 8) (by omega)]
    simp

/-- The bits of the new word. -/
theorem fileSetModeInfo_getLsbD (h : IsMode mode) {i : ℕ} (hi : i < 64) : (fileSetModeInfo info mode).getLsbD i =
    if 8 ≤ i ∧ i < 17 then mode.getLsbD (i - 8) else info.getLsbD i := by
  rw [fileSetModeInfo, BitVec.getLsbD_or, BitVec.getLsbD_and, modeMask_getLsbD hi, h.shift_getLsbD hi]
  split_ifs with hin <;> simp [hin]

/-- Of an earlier mode nothing is left. -/
theorem fileSetModeInfo_twice (h : IsMode mode) (h' : IsMode mode') :
    fileSetModeInfo (fileSetModeInfo info mode') mode = fileSetModeInfo info mode := by
  apply BitVec.eq_of_getLsbD_eq
  intro i hi
  rw [fileSetModeInfo_getLsbD h hi, fileSetModeInfo_getLsbD h hi, fileSetModeInfo_getLsbD h' hi]
  split_ifs <;> rfl

end

/-! ### The calls -/

inductive InfoCall (ι : Type) where
  | getInfo (inode : ι)
  | setInfo (inode : ι) (infomask : BitVec 64)

namespace InfoCall
variable {ι : Type} [DecidableEq ι]

/-- The word of an inode. -/
def view {ι : Type} (inode : ι) (d : ι → BitVec 64) : BitVec 64 := d inode

/-- `info = file->inode->data.info`. -/
def load (inode : ι) : Serial.Micro view (BitVec 64) inode where
  run p := (p.1, p.1 inode)
  reads _ _ _ h := h
  writes _ _ _ h := h
  others _ _ _ _ := rfl

/-- `inode->data.info = infomask`. -/
def store (inode : ι) : Serial.Micro view (BitVec 64) inode where
  run p := (update p.1 inode p.2, p.2)
  reads _ _ _ _ := rfl
  writes d d' f _ := show update d inode f inode = update d' inode f inode by rw [update_self, update_self]
  others _ h _ _ := update_of_ne h _ _

/-- What `file_get_info` and `file_set_info` do between the locks. -/
def call : InfoCall ι → Serial.Call (@view ι) (BitVec 64)
  | getInfo inode => ⟨inode, 0, [load inode]⟩
  | setInfo inode infomask => ⟨inode, infomask, [store inode]⟩

/-- The word of an inode after some calls. -/
def last (inode : ι) (info : BitVec 64) (calls : List (InfoCall ι)) : BitVec 64 :=
  calls.foldl (fun info c => match c with
    | getInfo _ => info
    | setInfo i infomask => if i = inode then infomask else info) info

/-- The word is the first one with some mode set. -/
def Moded (first infomask : BitVec 64) : Prop := ∃ mode, IsMode mode ∧ infomask = fileSetModeInfo first mode

/-- The nine bits of the mode in a word. -/
def modeBits (infomask : BitVec 64) : BitVec 32 := ((infomask >>> fileinfoModeBase).setWidth 9).setWidth 32

theorem modeBits_isMode (infomask : BitVec 64) : IsMode (modeBits infomask) := by
  unfold IsMode modeBits
  rw [BitVec.toNat_setWidth]
  exact Nat.lt_of_le_of_lt (Nat.mod_le _ _) (BitVec.isLt _)

theorem modeBits_set {info : BitVec 64} {mode : BitVec 32} (h : IsMode mode) : modeBits (fileSetModeInfo info mode) = mode := by
  apply BitVec.eq_of_getLsbD_eq
  intro i hi
  rw [modeBits, BitVec.getLsbD_setWidth, BitVec.getLsbD_setWidth, BitVec.getLsbD_ushiftRight, fileinfoModeBase]
  by_cases hlt : i < 9
  · rw [fileSetModeInfo_getLsbD h (by omega), if_pos (by omega), Nat.add_sub_cancel_left]
    simp [hi, hlt]
  · rw [h.getLsbD (by omega)]
    simp [hlt]

theorem moded_iff {first infomask : BitVec 64} :
    infomask = fileSetModeInfo first (modeBits infomask) ↔ Moded first infomask := by
  constructor
  · exact fun h => ⟨modeBits infomask, modeBits_isMode infomask, h⟩
  · rintro ⟨mode, hmode, rfl⟩
    rw [modeBits_set hmode]

instance (first infomask : BitVec 64) : Decidable (Moded first infomask) := decidable_of_iff _ moded_iff

theorem Moded.again {first info : BitVec 64} (h : info = first ∨ Moded first info) {mode : BitVec 32} (hm : IsMode mode) :
    Moded first (fileSetModeInfo info mode) := by
  refine ⟨mode, hm, ?_⟩
  rcases h with rfl | ⟨mode', hm', rfl⟩
  · rfl
  · exact fileSetModeInfo_twice hm hm'

/-- A call sets such a word only. -/
def OfMode (d : ι → BitVec 64) : InfoCall ι → Prop
  | getInfo _ => True
  | setInfo inode infomask => Moded (d inode) infomask

/-- What a thread is about to set, and what it has got. -/
def PlaceOfMode (d : ι → BitVec 64) : CallPlace (@call ι _) → Prop
  | .outside => True
  | .acquiring c => c.OfMode d
  | .inside (.getInfo inode) f ms => ms = [load inode] ∨ ms = [] ∧ (f = d inode ∨ Moded (d inode) f)
  | .inside (.setInfo inode _) f ms => (ms = [store inode] ∨ ms = []) ∧ Moded (d inode) f
  | .leaving _ _ => True

section
variable {M : Type} [ThreadQueues M] {lock : ι ↪ ℕ} {s s' : Guarded M (@call ι _)} {d : ι → BitVec 64}

/-- Who calls `file_set_info` is in `file_set_mode`: it sets a mode in what `file_get_info` has returned to it.  Only that
some call on the inode has returned it is used. -/
def InSetMode (s : Guarded M (@call ι _)) : GuardedAction (InfoCall ι) → Prop
  | .enter (.setInfo inode infomask) => ∃ info ∈ s.results inode, Moded info infomask
  | _ => True

instance (s : Guarded M (@call ι _)) (act : GuardedAction (InfoCall ι)) : Decidable (InSetMode s act) :=
  match act with
  | .enter (.setInfo inode infomask) => List.decidableBEx (fun info => Moded info infomask) (s.results inode)
  | .enter (.getInfo _) => isTrue trivial
  | .kernel _ => isTrue trivial
  | .begin => isTrue trivial
  | .micro => isTrue trivial
  | .finish => isTrue trivial
  | .leave => isTrue trivial

/-- All words that are about differ from the first ones in the mode only. -/
structure ModesOnly (d : ι → BitVec 64) (s : Guarded M (@call ι _)) : Prop where
  mem : ∀ inode, s.mem inode = d inode ∨ Moded (d inode) (s.mem inode)
  results : ∀ inode, ∀ info ∈ s.results inode, info = d inode ∨ Moded (d inode) info
  calls : ∀ inode, ∀ c ∈ s.calls inode, c.OfMode d
  place : ∀ t, PlaceOfMode d (s.place t)

theorem placeOfMode_update {place : ℕ → CallPlace (@call ι _)} (h : ∀ t, PlaceOfMode d (place t)) {p : CallPlace (@call ι _)}
    (hp : PlaceOfMode d p) (r t : ℕ) : PlaceOfMode d (update place r p t) := by
  rcases eq_or_ne t r with rfl | hne
  · rwa [update_self]
  · rw [update_of_ne hne]
    exact h t

omit [ThreadQueues M] in
theorem ModesOnly.goes (h : ModesOnly d s) {p : CallPlace (@call ι _)} {stmts : List Stmt} (hg : s.goes p stmts = some s')
    (hp : PlaceOfMode d p) : ModesOnly d s' := by
  obtain ⟨-, -, rfl⟩ := Guarded.goes_eq hg
  exact ⟨h.mem, h.results, h.calls, placeOfMode_update h.place hp _⟩

/-- What holds of all entries, when one is put behind those of an object. -/
theorem update_concat {α : Type} {P : ι → α → Prop} {f : ι → List α} (h : ∀ i, ∀ a ∈ f i, P i a) {i : ι}
    {a : α} (ha : P i a) (j : ι) : ∀ b ∈ update f i (f i ++ [a]) j, P j b := by
  intro b hb
  rcases eq_or_ne j i with rfl | hne
  · rw [update_self] at hb
    rcases List.mem_append.mp hb with hb | hb
    · exact h j b hb
    · exact List.mem_singleton.mp hb ▸ ha
  · rw [update_of_ne hne] at hb
    exact h j b hb

namespace ModesOnly

theorem enter (h : ModesOnly d s) {c : InfoCall ι} (hc : InSetMode s (.enter c)) (hs : s.step lock (.enter c) = some s') :
    ModesOnly d s' := by
  obtain ⟨-, hg⟩ := Guarded.step_enter hs
  refine h.goes hg ?_
  cases c with
  | getInfo inode => trivial
  | setInfo inode infomask =>
      obtain ⟨info, hinfo, mode, hmode, rfl⟩ := hc
      exact Moded.again (h.results inode info hinfo) hmode

theorem begin (h : ModesOnly d s) (hs : s.step lock .begin = some s') : ModesOnly d s' := by
  obtain ⟨c, s₁, hp, hg, rfl⟩ := Guarded.step_begin hs
  have hc : c.OfMode d := by
    have hplace := h.place s.kernel.running
    rwa [hp] at hplace
  have h₁ : ModesOnly d s₁ := by
    refine h.goes hg ?_
    cases c with
    | getInfo inode => exact .inl rfl
    | setInfo inode infomask => exact ⟨.inl rfl, hc⟩
  exact ⟨h₁.mem, h₁.results, update_concat h₁.calls hc, h₁.place⟩

/-- The one micro-step of a call. -/
theorem micro (h : ModesOnly d s) (hs : s.step lock .micro = some s') : ModesOnly d s' := by
  obtain ⟨c, f, m, ms, s₁, hp, hg, rfl⟩ := Guarded.step_micro hs
  have hplace := h.place s.kernel.running
  rw [hp] at hplace
  cases c with
  | getInfo inode =>
      rcases hplace with hms | ⟨hms, -⟩
      · obtain ⟨rfl, rfl⟩ := List.cons.inj hms
        have h₁ : ModesOnly d s₁ := h.goes hg (.inr ⟨rfl, h.mem inode⟩)
        exact ⟨h.mem, h₁.results, h₁.calls, h₁.place⟩
      · cases hms
  | setInfo inode infomask =>
      obtain ⟨hms | hms, hf⟩ := hplace
      · obtain ⟨rfl, rfl⟩ := List.cons.inj hms
        have h₁ : ModesOnly d s₁ := h.goes hg ⟨.inr rfl, hf⟩
        refine ⟨fun i => ?_, h₁.results, h₁.calls, h₁.place⟩
        show update s.mem inode f i = d i ∨ Moded (d i) (update s.mem inode f i)
        rcases eq_or_ne i inode with rfl | hne
        · rw [update_self]
          exact .inr hf
        · rw [update_of_ne hne]
          exact h.mem i
      · cases hms

theorem finish (h : ModesOnly d s) (hs : s.step lock .finish = some s') : ModesOnly d s' := by
  obtain ⟨c, f, s₁, hp, hg, rfl⟩ := Guarded.step_finish hs
  have h₁ : ModesOnly d s₁ := h.goes hg trivial
  have hplace := h.place s.kernel.running
  rw [hp] at hplace
  have hf : f = d (call c).object ∨ Moded (d (call c).object) f := by
    cases c with
    | getInfo inode =>
        rcases hplace with hms | ⟨-, hf⟩
        · cases hms
        · exact hf
    | setInfo inode infomask => exact .inr hplace.2
  exact ⟨h₁.mem, update_concat h₁.results hf, h₁.calls, h₁.place⟩

/-- **One step.** -/
theorem step (h : ModesOnly d s) {act : GuardedAction (InfoCall ι)} (hact : InSetMode s act)
    (hs : s.step lock act = some s') : ModesOnly d s' := by
  cases act with
  | kernel act =>
      obtain ⟨k, -, rfl⟩ := Guarded.step_kernel hs
      exact ⟨h.mem, h.results, h.calls, h.place⟩
  | enter c => exact h.enter hact hs
  | begin => exact h.begin hs
  | micro => exact h.micro hs
  | finish => exact h.finish hs
  | leave =>
      obtain ⟨c, f, -, hg⟩ := Guarded.step_leave hs
      exact h.goes hg trivial

end ModesOnly

end

end InfoCall

open InfoCall

end Dunkos
