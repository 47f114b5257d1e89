import Dunkos.FreeSectors

/-! # Taking sectors (`inode_disk_allocate_space`)

The loops call `free_map_allocate`, and between two calls other threads may call it and `free_map_release`.  Nothing keeps
`bestattempt` from going to 0, where `bitmap_scan` finds a run of no bits and `sectors` stays as it is.
`allocate_space_right` says that the runs are right as long as this does not happen. -/

namespace Dunkos

namespace Filesys

open Transition

/-- `inode_disk_allocate_space` behind its check, before a call of `free_map_allocate`: the free map, what other threads
have done to it so far included, `sectors`, `bestattempt`, the runs in `ext` so far, and the number of calls. -/
structure SpaceState where
  freeMap : Bitmap
  sectors : ℕ
  bestattempt : ℕ
  runs : List Extent
  calls : ℕ

/-- A call by another thread. -/
inductive OtherCall where
  | allocate (sectors : ℕ)
  | release (start sectors : ℕ)

def OtherCall.apply (bm : Bitmap) : OtherCall → Bitmap
  | allocate sectors => (bitmapScanAndFlip bm 0 sectors false).2
  | release start sectors => bitmapSet bm start sectors false

/-- A call by the thread itself, with what its loops do with the result, or by another one. -/
inductive SpaceAct where
  | attempt
  | other (c : OtherCall)

namespace SpaceState

/-- The first call. -/
def start (freeMap : Bitmap) (sectors : ℕ) : SpaceState where
  freeMap := freeMap
  sectors := sectors
  bestattempt := sectors
  runs := []
  calls := 0

/-- `free_map_allocate(bestattempt)`, and on to the next call. -/
def attempt (s : SpaceState) : SpaceState :=
  let r := bitmapScanAndFlip s.freeMap 0 s.bestattempt false
  let left := (s.sectors + (2 ^ 64 - s.bestattempt)) % 2 ^ 64
  if r.1 = bitmapNpos then
    { s with freeMap := r.2, bestattempt := sizeDec s.bestattempt, calls := s.calls + 1 }
  else
    { freeMap := r.2
      sectors := left
      bestattempt := left
      runs := s.runs ++ [⟨r.1, s.bestattempt⟩]
      calls := s.calls + 1 }

/-- The map after a call by another thread. -/
def other (s : SpaceState) (c : OtherCall) : SpaceState := { s with freeMap := c.apply s.freeMap }

/-- Nothing is left to do when `sectors` is 0. -/
def step (s : SpaceState) : SpaceAct → Option SpaceState
  | .attempt => if s.sectors > 0 then some s.attempt else none
  | .other c => some (s.other c)

theorem step_attempt {s : SpaceState} (h : 0 < s.sectors) : s.step .attempt = some s.attempt := if_pos h

/-- Other threads do not release what this call has taken. -/
def Foreign (s : SpaceState) : SpaceAct → Prop
  | .other (.release start sectors) => ∀ r ∈ s.runs, Extent.Apart ⟨start, sectors⟩ r
  | _ => True

/-- Some sector is free. -/
def Free (bm : Bitmap) : Prop := ∃ i < bm.bitcount, bitmapTest bm i = false

instance (bm : Bitmap) : Decidable (Free bm) :=
  inferInstanceAs (Decidable (∃ i, i < bm.bitcount ∧ bitmapTest bm i = false))

/-- A call for one sector is made while one is free. -/
def Served (s : SpaceState) : SpaceAct → Prop
  | .attempt => s.bestattempt = 1 → Free s.freeMap
  | _ => True

def Ok (s : SpaceState) (a : SpaceAct) : Prop := s.Foreign a ∧ s.Served a

theorem ok_attempt {s : SpaceState} (h : s.bestattempt = 1 → Free s.freeMap) : s.Ok .attempt := ⟨trivial, h⟩

end SpaceState

/-! ### What it is for -/

/-- The loops of a request come to an end; the runs are not empty and apart, and in the end they are what was asked for. -/
structure SpaceRight (sectors : ℕ) (s : SpaceState) : Prop where
  ends : s.calls ≤ sectors * (sectors + 2)
  nonempty : ∀ r ∈ s.runs, 1 ≤ r.len
  apart : s.runs.Pairwise Extent.Apart
  total : s.sectors = 0 → (s.runs.map Extent.len).sum = sectors

/-! ### The bits -/

/-- Bits that are set stay set when a run of clear ones is taken. -/
theorem scanAndFlip_test {bm : Bitmap} {n i : ℕ} (h : bitmapTest bm i = true) :
    bitmapTest (bitmapScanAndFlip bm 0 n false).2 i = true := by
  rcases bitmapScanAndFlip_spec bm 0 n false with ⟨he, -⟩ | ⟨r, he, -, -, hr, -⟩
  · rw [he]
    exact h
  · rw [he, bitmapFlip_test, if_neg]
    · exact h
    · rintro ⟨hc, -⟩
      rw [hr.eq i hc] at h
      cases h

@[simp] theorem scanAndFlip_bitcount (bm : Bitmap) (n : ℕ) : (bitmapScanAndFlip bm 0 n false).2.bitcount = bm.bitcount := by
  rcases bitmapScanAndFlip_spec bm 0 n false with ⟨he, -⟩ | ⟨r, he, -⟩ <;> simp [he]

theorem free_iff {bm : Bitmap} : SpaceState.Free bm ↔ ∃ i, bm.RunAt 1 false i := by
  constructor
  · rintro ⟨i, hi, hfree⟩
    refine ⟨i, hi, by omega, fun j hj => ?_⟩
    obtain rfl : j = i := by
      rw [Extent.covers_mk] at hj
      omega
    exact hfree
  · rintro ⟨i, hi⟩
    exact ⟨i, hi.lt, hi.eq i (by simp)⟩

/-- A run of no bits is found in any map. -/
theorem runAt_zero {bm : Bitmap} (h : 0 < bm.bitcount) : bm.RunAt 0 false 0 where
  lt := h
  le := Nat.zero_le _
  eq j hj := by simp at hj

namespace SpaceState

/-- **A call** finds no run and goes down by one, or takes a run of clear bits. -/
theorem attempt_cases (s : SpaceState) :
    ((∀ i, ¬ s.freeMap.RunAt s.bestattempt false i) ∧
        s.attempt = { s with bestattempt := sizeDec s.bestattempt, calls := s.calls + 1 }) ∨
      ∃ r, s.freeMap.RunAt s.bestattempt false r ∧ s.attempt =
        { freeMap := bitmapFlip s.freeMap r s.bestattempt
          sectors := (s.sectors + (2 ^ 64 - s.bestattempt)) % 2 ^ 64
          bestattempt := (s.sectors + (2 ^ 64 - s.bestattempt)) % 2 ^ 64
          runs := s.runs ++ [⟨r, s.bestattempt⟩]
          calls := s.calls + 1 } := by
  unfold attempt
  rcases bitmapScanAndFlip_spec s.freeMap 0 s.bestattempt false with ⟨he, hno⟩ | ⟨r, he, hne, -, hr, -⟩
  · refine .inl ⟨fun i => hno i i.zero_le, ?_⟩
    simp [he]
  · refine .inr ⟨r, hr, ?_⟩
    simp [he, hne]

/-- What holds between the calls. -/
structure Inv (sectors : ℕ) (s : SpaceState) : Prop where
  pos : 0 < s.sectors → 1 ≤ s.bestattempt
  le : s.bestattempt ≤ s.sectors
  nonempty : ∀ r ∈ s.runs, 1 ≤ r.len
  apart : s.runs.Pairwise Extent.Apart
  taken : ∀ r ∈ s.runs, ∀ i, r.Covers i → i < s.freeMap.bitcount ∧ bitmapTest s.freeMap i = true
  total : (s.runs.map Extent.len).sum + s.sectors = sectors
  calls : s.calls + ((sectors + 1) * s.sectors + s.bestattempt) ≤ sectors * (sectors + 2)

theorem sizeDec_eq {n : ℕ} (hn : 1 ≤ n) (hlt : n < 2 ^ 64) : sizeDec n = n - 1 := by
  unfold sizeDec
  omega

theorem inv_start (bm : Bitmap) (sectors : ℕ) : Inv sectors (start bm sectors) where
  pos := id
  le := Nat.le_refl _
  nonempty := by simp [start]
  apart := by simp [start]
  taken := by simp [start]
  total := by simp [start]
  calls := by
    have hbound : (sectors + 1) * sectors + sectors = sectors * (sectors + 2) := by
      rw [Nat.add_mul, Nat.mul_add]
      omega
    simp [start, hbound]

/-- What the others do to the map, when it leaves the bits of the runs. -/
theorem Inv.other {sectors : ℕ} {s : SpaceState} (h : Inv sectors s) {bm : Bitmap} (hcount : bm.bitcount = s.freeMap.bitcount)
    (hbits : ∀ r ∈ s.runs, ∀ i, r.Covers i → bitmapTest s.freeMap i = true → bitmapTest bm i = true) :
    Inv sectors { s with freeMap := bm } :=
  { h with
    taken := fun r hr i hi => by
      obtain ⟨hlt, htest⟩ := h.taken r hr i hi
      exact ⟨hcount ▸ hlt, hbits r hr i hi htest⟩ }

/-- A run of no sectors is not tried: before that, one sector was free. -/
theorem Inv.attempt {sectors : ℕ} (hlt : sectors < 2 ^ 64) {s : SpaceState} (h : Inv sectors s) (hmore : 0 < s.sectors)
    (hone : s.bestattempt = 1 → Free s.freeMap) : Inv sectors s.attempt := by
  have hpos := h.pos hmore
  have hle := h.le
  have htotal := h.total
  have hcalls := h.calls
  rcases s.attempt_cases with ⟨hno, he⟩ | ⟨r, hr, he⟩
  · -- a free sector would have been a run of one
    have hne : s.bestattempt ≠ 1 := by
      intro h₁
      obtain ⟨i, hi⟩ := free_iff.mp (hone h₁)
      exact hno i (h₁ ▸ hi)
    have hdec := sizeDec_eq hpos (by omega)
    rw [he, hdec]
    exact { h with pos := fun _ => by simp only; omega, le := by simp only; omega, calls := by simp only; omega }
  · have hleft : (s.sectors + (2 ^ 64 - s.bestattempt)) % 2 ^ 64 = s.sectors - s.bestattempt := by omega
    rw [he, hleft]
    refine ⟨id, Nat.le_refl _, ?_, ?_, ?_, ?_, ?_⟩
    · intro e he
      rcases List.mem_append.mp he with he | he
      · exact h.nonempty e he
      · rw [List.mem_singleton.mp he]
        exact hpos
    · refine List.pairwise_append.mpr ⟨h.apart, List.pairwise_singleton _ _, fun e he e' he' i hi hi' => ?_⟩
      rw [List.mem_singleton.mp he'] at hi'
      have htaken := (h.taken e he i hi).2
      rw [hr.eq i hi'] at htaken
      cases htaken
    · intro e he i hi
      simp only [bitmapFlip_bitcount, bitmapFlip_test]
      rcases List.mem_append.mp he with he | he
      · obtain ⟨hi', htest⟩ := h.taken e he i hi
        refine ⟨hi', ?_⟩
        rw [if_neg, htest]
        rintro ⟨hc, -⟩
        rw [hr.eq i hc] at htest
        cases htest
      · rw [List.mem_singleton.mp he] at hi
        have hi' : i < s.freeMap.bitcount := Nat.lt_of_lt_of_le hi.2 hr.le
        exact ⟨hi', by rw [if_pos ⟨hi, hi'⟩, hr.eq i hi, Bool.not_false]⟩
    · simp only [List.map_append, List.map_cons, List.map_nil, List.sum_append, List.sum_cons, List.sum_nil]
      omega
    · have hmeasure : (sectors + 1) * (s.sectors - s.bestattempt) + (sectors + 1) * s.bestattempt =
          (sectors + 1) * s.sectors := by
        rw [← Nat.mul_add, Nat.sub_add_cancel hle]
      have hstep : sectors + 1 ≤ (sectors + 1) * s.bestattempt := Nat.le_mul_of_pos_right _ hpos
      simp only
      omega

theorem inv_step {sectors : ℕ} (hlt : sectors < 2 ^ 64) {s t : SpaceState} {a : SpaceAct} (h : Inv sectors s) (hok : s.Ok a)
    (hs : s.step a = some t) : Inv sectors t := by
  cases a with
  | attempt =>
      simp only [step, Option.ite_none_right_eq_some, Option.some.injEq] at hs
      obtain ⟨hmore, rfl⟩ := hs
      exact h.attempt hlt hmore hok.2
  | other c =>
      obtain rfl := Option.some.inj hs
      cases c with
      | allocate n => exact h.other (scanAndFlip_bitcount _ _) fun _ _ _ _ => scanAndFlip_test
      | release start n =>
          refine h.other (bitmapSet_bitcount _ _ _ _) fun r hr i hi htest => ?_
          show bitmapTest (bitmapSet s.freeMap start n false) i = true
          rw [bitmapSet_test, if_neg fun hc => hok.1 r hr i hc.1 hi]
          exact htest

end SpaceState

/-- **Taking sectors.**  For every free map and request, whatever other threads allocate and release between the calls: as
long as a sector is free whenever one is asked for, and what has been taken is not released by others, the loops end and the
runs are right. -/
theorem allocate_space_right (bm : Bitmap) {sectors : ℕ} (hlt : sectors < 2 ^ 64) {s : SpaceState}
    (h : Reach SpaceState.step SpaceState.Ok (.start bm sectors) s) : SpaceRight sectors s := by
  have hinv : SpaceState.Inv sectors s :=
    h.invariant (SpaceState.inv_start bm sectors) fun _ _ _ => SpaceState.inv_step hlt
  refine ⟨?_, hinv.nonempty, hinv.apart, fun hdone => ?_⟩
  · have hcalls := hinv.calls
    omega
  · have htotal := hinv.total
    omega

theorem three_lt : 3 < 2 ^ 64 := by decide

/-- Three sectors, with the one in the middle taken. -/
def threeSectors : Bitmap := bitmapSet (bitmapCreate 3 three_lt fun _ => 0) 1 1 true

/-- Two sectors are taken one by one. -/
theorem allocate_space_right_two : ∃ s, SpaceRight 2 s ∧ s.sectors = 0 ∧ s.runs = [⟨0, 1⟩, ⟨2, 1⟩] := by
  have r₀ : Reach SpaceState.step SpaceState.Ok (.start threeSectors 2) _ := .start
  have r₁ := r₀.next (a := .attempt) (SpaceState.ok_attempt (by decide +kernel)) (SpaceState.step_attempt (by decide +kernel))
  have r₂ := r₁.next (a := .attempt) (SpaceState.ok_attempt (by decide +kernel)) (SpaceState.step_attempt (by decide +kernel))
  have r₃ := r₂.next (a := .attempt) (SpaceState.ok_attempt (by decide +kernel)) (SpaceState.step_attempt (by decide +kernel))
  exact ⟨_, allocate_space_right threeSectors (by decide) r₃, by decide +kernel, by decide +kernel⟩

/-! ### When no sector is free -/

namespace SpaceState

/-- No run was empty, and none will be next. -/
def Sound (s : SpaceState) : Prop := (∀ r ∈ s.runs, 1 ≤ r.len) ∧ (0 < s.sectors → 1 ≤ s.bestattempt)

theorem sizeDec_lt (n : ℕ) : sizeDec n < 2 ^ 64 := by
  unfold sizeDec
  exact Nat.mod_lt _ (by decide)

/-- The map keeps its size, and `bestattempt` is a `size_t`. -/
theorem step_bounds {bound : ℕ} {s t : SpaceState} {a : SpaceAct}
    (h : s.freeMap.bitcount = bound ∧ s.bestattempt < 2 ^ 64) (hs : s.step a = some t) :
    t.freeMap.bitcount = bound ∧ t.bestattempt < 2 ^ 64 := by
  cases a with
  | attempt =>
      simp only [step, Option.ite_none_right_eq_some, Option.some.injEq] at hs
      obtain ⟨-, rfl⟩ := hs
      rcases s.attempt_cases with ⟨-, he⟩ | ⟨r, -, he⟩
      · rw [he]
        exact ⟨h.1, sizeDec_lt _⟩
      · rw [he]
        exact ⟨(bitmapFlip_bitcount _ _ _).trans h.1, Nat.mod_lt _ (by decide)⟩
  | other c =>
      obtain rfl := Option.some.inj hs
      refine ⟨?_, h.2⟩
      cases c with
      | allocate n => exact (scanAndFlip_bitcount _ _).trans h.1
      | release start n => exact (bitmapSet_bitcount _ _ _ _).trans h.1

/-- **A call** leaves all sound exactly if it is not for one sector when none is free. -/
theorem sound_attempt {s : SpaceState} (hbits : 0 < s.freeMap.bitcount) (hlt : s.bestattempt < 2 ^ 64)
    (hmore : 0 < s.sectors) : s.attempt.Sound ↔ s.Sound ∧ s.Served .attempt := by
  rcases s.attempt_cases with ⟨hno, he⟩ | ⟨r, hr, he⟩
  · have hzero : s.bestattempt ≠ 0 := by
      intro h₀
      exact hno 0 (h₀ ▸ runAt_zero hbits)
    have hserved : s.Served .attempt ↔ s.bestattempt ≠ 1 := by
      refine ⟨fun h h₁ => ?_, fun h h₁ => absurd h₁ h⟩
      obtain ⟨i, hi⟩ := free_iff.mp (h h₁)
      exact hno i (h₁ ▸ hi)
    have hdec := sizeDec_eq (Nat.pos_of_ne_zero hzero) hlt
    rw [hserved, he, hdec]
    unfold Sound
    constructor
    · rintro ⟨hruns, hnext⟩
      have := hnext hmore
      exact ⟨⟨hruns, fun _ => by omega⟩, by simp only at this; omega⟩
    · rintro ⟨⟨hruns, -⟩, hne⟩
      exact ⟨hruns, fun _ => by simp only; omega⟩
  · have hserved : 1 ≤ s.bestattempt → s.Served .attempt := fun _ h₁ => free_iff.mpr ⟨r, h₁ ▸ hr⟩
    rw [he]
    unfold Sound
    constructor
    · rintro ⟨hruns, -⟩
      have hpos : 1 ≤ s.bestattempt := hruns ⟨r, s.bestattempt⟩ (by simp)
      exact ⟨⟨fun e he => hruns e (List.mem_append_left _ he), fun _ => hpos⟩, hserved hpos⟩
    · rintro ⟨⟨hruns, hnext⟩, -⟩
      refine ⟨fun e he => ?_, id⟩
      rcases List.mem_append.mp he with he | he
      · exact hruns e he
      · rw [List.mem_singleton.mp he]
        exact hnext hmore

end SpaceState

/-- **The condition is exact**: a call that returns, while the others leave alone what it took, took a run of no sectors if
at some point one sector was asked for and none was free. -/
theorem allocate_space_returned {bm : Bitmap} (hbits : 0 < bm.bitcount) {sectors : ℕ} (hlt : sectors < 2 ^ 64)
    {s : SpaceState} (h : Reach SpaceState.step SpaceState.Foreign (.start bm sectors) s) (hdone : s.sectors = 0) :
    (∀ r ∈ s.runs, 1 ≤ r.len) ↔ Reach SpaceState.step SpaceState.Ok (.start bm sectors) s := by
  have hsound : s.Sound ↔ ∀ r ∈ s.runs, 1 ≤ r.len := by
    simp [SpaceState.Sound, hdone]
  have hbounds : ∀ u, Reach SpaceState.step SpaceState.Foreign (.start bm sectors) u →
      u.freeMap.bitcount = bm.bitcount ∧ u.bestattempt < 2 ^ 64 := fun u hu =>
    hu.invariant ⟨rfl, hlt⟩ fun _ _ _ hb _ => SpaceState.step_bounds hb
  have hiff := h.good_iff (G := SpaceState.Sound) (B := fun s a => ¬ s.Served a)
    ⟨by simp [SpaceState.start], id⟩ fun u a t hu _ ht => by
      rw [not_not]
      cases a with
      | attempt =>
          simp only [SpaceState.step, Option.ite_none_right_eq_some, Option.some.injEq] at ht
          obtain ⟨hmore, rfl⟩ := ht
          obtain ⟨hcount, hbest⟩ := hbounds u hu
          exact SpaceState.sound_attempt (hcount ▸ hbits) hbest hmore
      | other c =>
          obtain rfl := Option.some.inj ht
          simp [SpaceState.Sound, SpaceState.Served, SpaceState.other]
  rw [← hsound, hiff]
  simp only [not_not]
  rfl

/-- In a full map the loops go round for ever. -/
theorem attempts_full {s : SpaceState} (hfull : ¬ SpaceState.Free s.freeMap) (hlt : s.sectors < 2 ^ 64) (n : ℕ) :
    (SpaceState.attempt^[n] s).sectors = s.sectors := by
  have hkeep : ∀ u : SpaceState, ¬ SpaceState.Free u.freeMap ∧ u.sectors = s.sectors →
      ¬ SpaceState.Free u.attempt.freeMap ∧ u.attempt.sectors = s.sectors := by
    rintro u ⟨hfree, hsectors⟩
    rcases u.attempt_cases with ⟨-, he⟩ | ⟨r, hr, he⟩
    · rw [he]
      exact ⟨hfree, hsectors⟩
    · -- the run that was found has no bits
      have hzero : u.bestattempt = 0 := by
        by_contra hne
        exact hfree ⟨r, hr.lt, hr.eq r (Extent.covers_mk.mpr ⟨Nat.le_refl _, by omega⟩)⟩
      rw [he, hzero]
      exact ⟨hfree, by simp only; omega⟩
  have hall : ¬ SpaceState.Free (SpaceState.attempt^[n] s).freeMap ∧ (SpaceState.attempt^[n] s).sectors = s.sectors := by
    induction n with
    | zero => exact ⟨hfull, rfl⟩
    | succ n ih =>
        rw [Function.iterate_succ_apply']
        exact hkeep _ ih
  exact hall.2

theorem two_lt : 2 < 2 ^ 64 := by decide

/-- Two sectors, of which the first is taken. -/
def twoSectors : Bitmap := bitmapSet (bitmapCreate 2 two_lt fun _ => 0) 0 1 true

/-- **A race**: the free sector goes to another thread behind the check, and the call takes no sectors, for ever. -/
theorem allocate_space_raced : clearBits twoSectors = 1 ∧ ∃ s, Reach SpaceState.step SpaceState.Foreign (.start twoSectors 1) s ∧
    ⟨0, 0⟩ ∈ s.runs ∧ ∀ n, (SpaceState.attempt^[n] s).sectors = 1 := by
  have r₀ : Reach SpaceState.step SpaceState.Foreign (.start twoSectors 1) _ := .start
  have r₁ := r₀.next (a := .other (.allocate 1)) (by trivial) rfl
  have r₂ := r₁.next (a := .attempt) (by trivial) (SpaceState.step_attempt (by decide +kernel))
  have r₃ := r₂.next (a := .attempt) (by trivial) (SpaceState.step_attempt (by decide +kernel))
  refine ⟨by decide, _, r₃, by decide +kernel, fun n => ?_⟩
  have hone : (((SpaceState.start twoSectors 1).other (.allocate 1)).attempt.attempt).sectors = 1 := by decide +kernel
  exact (attempts_full (by decide +kernel) (by omega) n).trans hone

/-! ### The calls of the function -/

section
open Call

variable {bm : Bitmap} {sectors n b k : ℕ}

/-- Other threads only call the two functions. -/
def CallsOnly (s : FsState) : Prop :=
  ∀ f ∈ s.others, ∃ cs : List OtherCall, ∀ fs, f fs = { fs with freeMapVar := cs.foldl OtherCall.apply fs.freeMapVar }

theorem CallsOnly.wait {s : FsState} (h : CallsOnly s) :
    CallsOnly s.wait ∧ s.wait.fs.freeSectors = s.fs.freeSectors := by
  unfold FsState.wait
  match hothers : s.others with
  | [] => exact ⟨h, rfl⟩
  | f :: fs =>
      obtain ⟨cs, hf⟩ := h f (hothers ▸ List.mem_cons_self)
      refine ⟨fun g hg => h g (hothers ▸ List.mem_cons_of_mem _ hg), ?_⟩
      show (f s.fs).freeSectors = _
      rw [hf]

/-- A run has come to where the thread is. -/
structure Tracks (bm : Bitmap) (sectors : ℕ) (s : FsState) (u : SpaceState) : Prop where
  reach : Reach SpaceState.step (fun _ _ => True) (.start bm sectors) u
  freeMap : s.fs.freeMapVar = u.freeMap
  others : CallsOnly s

/-- It is before its call number `k`, for `b` of `n` sectors. -/
def At (bm : Bitmap) (sectors n b k : ℕ) (s : FsState) : Prop :=
  ∃ u, Tracks bm sectors s u ∧ u.sectors = n ∧ u.bestattempt = b ∧ u.calls = k

theorem At.congr {s t : FsState} (h : At bm sectors n b k s) (hmap : t.fs.freeMapVar = s.fs.freeMapVar)
    (hothers : t.others = s.others) : At bm sectors n b k t := by
  obtain ⟨u, hu, hfields⟩ := h
  refine ⟨u, ⟨hu.reach, hmap.trans hu.freeMap, ?_⟩, hfields⟩
  unfold CallsOnly
  exact hothers ▸ hu.others

/-- The lock will be free. -/
def Open (s : FsState) : Prop := 0 < s.sema .freeMap

theorem reach_others {u : SpaceState} (h : Reach SpaceState.step (fun _ _ => True) (.start bm sectors) u)
    (cs : List OtherCall) :
    Reach SpaceState.step (fun _ _ => True) (.start bm sectors) { u with freeMap := cs.foldl OtherCall.apply u.freeMap } := by
  induction cs generalizing u with
  | nil => exact h
  | cons c cs ih => exact ih (h.next (a := .other c) trivial rfl)

/-- The other threads, while this one waits. -/
theorem At.wait {s : FsState} (h : At bm sectors n b k s) : At bm sectors n b k s.wait := by
  obtain ⟨u, hu, hfields⟩ := h
  unfold FsState.wait
  match hothers : s.others with
  | [] => exact ⟨u, hu, hfields⟩
  | f :: fs =>
      obtain ⟨cs, hf⟩ := hu.others f (hothers ▸ List.mem_cons_self)
      refine ⟨_, ⟨reach_others hu.reach cs, ?_, fun g hg => hu.others g (hothers ▸ List.mem_cons_of_mem _ hg)⟩, hfields⟩
      show (f s.fs).freeMapVar = _
      rw [hf, hu.freeMap]

theorem at_acquire : Returns (fun s => At bm sectors n b k s ∧ Open s) (lockAcquire .freeMap)
    fun _ => At bm sectors n b k := by
  rintro s ⟨hat, hopen⟩
  have hwait : At bm sectors n b k (s.event (.acquire .freeMap)).wait :=
    (hat.congr (t := s.event (.acquire .freeMap)) rfl rfl).wait
  have hsema : (s.event (.acquire .freeMap)).wait.sema .freeMap ≠ 0 := by
    rw [wait_sema]
    exact Nat.ne_of_gt hopen
  unfold lockAcquire
  simp only [if_neg hsema]
  exact hwait.congr rfl rfl

theorem at_release : Returns (At bm sectors n b k) (lockRelease .freeMap) fun _ s => At bm sectors n b k s ∧ Open s :=
  .modify fun s hs => ⟨hs.congr rfl rfl, by simp [Open, FsState.event, FsState.setSema]⟩

/-- Where the thread is after a call, by its result. -/
def Tried (bm : Bitmap) (sectors n b k start : ℕ) (s : FsState) : Prop :=
  if start = bitmapNpos then At bm sectors n (sizeDec b) (k + 1) s
  else At bm sectors ((n + (2 ^ 64 - b)) % 2 ^ 64) ((n + (2 ^ 64 - b)) % 2 ^ 64) (k + 1) s

theorem at_allocate (hn : 0 < n) : Returns (fun s => At bm sectors n b k s ∧ Open s) (freeMapAllocate b)
    fun start s => Tried bm sectors n b k start s ∧ Open s := by
  refine .bind at_acquire fun _ => .bind (.get (Q := fun s t => At bm sectors n b k t ∧ s = t) fun s hs => ⟨hs, rfl⟩) fun s => ?_
  refine .bind (Q := fun _ t => Tried bm sectors n b k (bitmapScanAndFlip s.fs.freeMapVar 0 b false).1 t)
    (.modify ?_) fun _ => ?_
  · rintro t ⟨⟨u, hu, rfl, rfl, rfl⟩, rfl⟩
    have hnext := hu.reach.next (a := .attempt) trivial (SpaceState.step_attempt hn)
    unfold Tried
    rw [hu.freeMap]
    split_ifs with he
    · exact ⟨_, ⟨hnext, by simp [SpaceState.attempt, he], hu.others⟩, by simp [SpaceState.attempt, he]⟩
    · exact ⟨_, ⟨hnext, by simp [SpaceState.attempt, he], hu.others⟩, by simp [SpaceState.attempt, he]⟩
  · refine .bind (Q := fun _ t => Tried bm sectors n b k (bitmapScanAndFlip s.fs.freeMapVar 0 b false).1 t ∧ Open t) ?_
      fun _ => .pure fun t ht => ht
    unfold Tried
    split_ifs
    · exact at_release
    · exact at_release

/-- The code goes on behind `fuel` calls from now. -/
def Later (bm : Bitmap) (sectors k fuel : ℕ) (e : Stop) (s : FsState) : Prop :=
  e = .endless ∧ ∃ n b k', At bm sectors n b k' s ∧ k + fuel ≤ k'

theorem at_attempts (hn : 0 < n) (fuel : ℕ) : Triple (fun s => At bm sectors n b k s ∧ Open s) (attemptLoop fuel b)
    (fun r s => (∃ k', k < k' ∧ At bm sectors ((n + (2 ^ 64 - r.2)) % 2 ^ 64) ((n + (2 ^ 64 - r.2)) % 2 ^ 64) k' s) ∧ Open s)
    (Later bm sectors k fuel) := by
  induction fuel generalizing b k with
  | zero => exact .stop fun s hs => ⟨rfl, n, b, k, hs.1, Nat.le_refl _⟩
  | succ fuel ih =>
      refine .bind (at_allocate hn).triple fun start => ?_
      unfold Tried
      refine .ite (fun he => ?_) fun he => .pure fun s hs => ?_
      · simp only [if_pos he]
        refine ih.conseq (fun _ hs => hs) ?_ ?_
        · rintro r s ⟨⟨k', hk, hat⟩, hopen⟩
          exact ⟨⟨k', by omega, hat⟩, hopen⟩
        · rintro e s ⟨he, m, c, k', hat, hk⟩
          exact ⟨he, m, c, k', hat, by omega⟩
      · simp only [if_neg he] at hs
        exact ⟨⟨k + 1, Nat.lt_succ_self k, hs.1⟩, hs.2⟩

theorem Later.mono {k' fuel fuel' : ℕ} {e : Stop} {s : FsState} (h : Later bm sectors k' fuel' e s)
    (hle : k + fuel ≤ k' + fuel') : Later bm sectors k fuel e s := by
  obtain ⟨he, m, c, k'', hat, hk⟩ := h
  exact ⟨he, m, c, k'', hat, by omega⟩

theorem at_space (fuel : ℕ) (idisk : InodeDisk) : Triple (fun s => At bm sectors n n k s ∧ Open s) (spaceLoop fuel idisk n)
    (fun r s => r = idisk ∧ ∃ k', At bm sectors 0 0 k' s) (Later bm sectors k (fuel - 1)) := by
  induction fuel generalizing idisk n k with
  | zero => exact .stop fun s hs => ⟨rfl, n, n, k, hs.1, Nat.le_refl _⟩
  | succ fuel ih =>
      refine .ite (fun hn => .bind (at_attempts hn fuel) fun r => ?_) fun hn => .pure fun s hs => ?_
      · rintro s ⟨⟨k', hk, hat⟩, hopen⟩
        have hrest := (ih (n := (n + (2 ^ 64 - r.2)) % 2 ^ 64) (k := k') (inodeDiskInsertExtent idisk ⟨BitVec.ofNat 32 r.1, BitVec.ofNat 32 r.2⟩)).conseq
          (fun _ hs => hs) (fun _ _ hs => hs) fun e t ht => ht.mono (show k + fuel ≤ k' + (fuel - 1) by omega)
        exact hrest s ⟨hat, hopen⟩
      · obtain rfl : n = 0 := by omega
        exact ⟨rfl, k, hs.1⟩

theorem start_acquire {s : FsState} (hopen : Open s) (hothers : CallsOnly s) :
    ∃ bm, ∀ sectors, Returns (· = s) (lockAcquire .freeMap) fun _ t =>
      At bm sectors sectors sectors 0 t ∧ t.fs.freeSectors = s.fs.freeSectors := by
  refine ⟨(s.event (.acquire .freeMap)).wait.fs.freeMapVar, fun sectors t ht => ?_⟩
  subst ht
  have hsema : (t.event (.acquire .freeMap)).wait.sema .freeMap ≠ 0 := by
    rw [wait_sema]
    exact Nat.ne_of_gt hopen
  obtain ⟨hcalls, hfree⟩ := CallsOnly.wait (s := t.event (.acquire .freeMap)) hothers
  unfold lockAcquire
  simp only [if_neg hsema]
  exact ⟨⟨_, ⟨.start, rfl, hcalls⟩, rfl, rfl, rfl⟩, hfree⟩

/-- **The calls are runs**: `inode_disk_allocate_space` returns false for what is not free, and else it goes through a run of
the loops, to its end when it returns, and to call number `fuel - 1` when it is stopped. -/
theorem inodeDiskAllocateSpace_run {s : FsState} (hopen : Open s) (hothers : CallsOnly s) :
    ∃ bm, ∀ fuel idisk sectors, Ends
      (fun r t => r = (decide (sectors ≤ s.fs.freeSectors), idisk) ∧
        (sectors ≤ s.fs.freeSectors → ∃ k, At bm sectors 0 0 k t))
      (fun e t => sectors ≤ s.fs.freeSectors ∧ Later bm sectors 0 (fuel - 1) e t)
      (inodeDiskAllocateSpace fuel idisk sectors s) := by
  obtain ⟨bm, hstart⟩ := start_acquire hopen hothers
  refine ⟨bm, fun fuel idisk sectors => ?_⟩
  have hdone : ∀ r, Triple (fun t => r = (decide (sectors ≤ s.fs.freeSectors), idisk) ∧
        (sectors ≤ s.fs.freeSectors → ∃ k, At bm sectors 0 0 k t)) (do lockRelease .freeMap; return r)
      (fun r t => r = (decide (sectors ≤ s.fs.freeSectors), idisk) ∧
        (sectors ≤ s.fs.freeSectors → ∃ k, At bm sectors 0 0 k t))
      (fun e t => sectors ≤ s.fs.freeSectors ∧ Later bm sectors 0 (fuel - 1) e t) := by
    refine fun r => .bind (Q := fun _ t => r = (decide (sectors ≤ s.fs.freeSectors), idisk) ∧
      (sectors ≤ s.fs.freeSectors → ∃ k, At bm sectors 0 0 k t)) (.modify ?_) fun _ => .pure fun t ht => ht
    rintro t ⟨hr, hat⟩
    refine ⟨hr, fun hle => ?_⟩
    obtain ⟨k, hk⟩ := hat hle
    exact ⟨k, hk.congr rfl rfl⟩
  refine Triple.bind (P := (· = s)) (hstart sectors).triple (fun _ => ?_) s rfl
  refine .bind (.get (Q := fun u t => u.fs.freeSectors = s.fs.freeSectors ∧ At bm sectors sectors sectors 0 t)
    fun t ht => ⟨ht.2, ht.1⟩) fun u => .intro fun hu => ?_
  rw [hu]
  refine .ite (fun hle => ?_) fun hle => ?_
  · refine .bind at_release.triple fun _ => .bind ((at_space fuel idisk).conseq (fun _ ht => ht) (fun _ _ ht => ht)
      fun e t ht => ⟨hle, ht⟩) fun r => .bind (.pure fun t ht => ?_) hdone
    exact ⟨by rw [decide_eq_true hle, ht.1], fun _ => ht.2⟩
  · refine .bind (.pure fun t _ => ?_) hdone
    exact ⟨by rw [decide_eq_false hle], fun h => absurd h hle⟩

end

end Filesys

end Dunkos
